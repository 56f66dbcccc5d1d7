import AsmBlock.Fault

/-!
# Commands

A state that takes commands answers each of them or faults.  A command that
faults leaves the state as it was, so that the commands after it still run.
What a command means is given by `run`; what every command keeps, any number of
them keeps (`Commands.after_keeps`).
-/

namespace AsmBlock

namespace Commands

variable {σ κ ρ : Type}

/-- Runs one command and keeps the state when the command faults. -/
def step (run : σ → κ → Except Fault (ρ × σ)) (state : σ) (command : κ) : Except Fault ρ × σ :=
  match run state command with
  | .ok (reply, next) => (.ok reply, next)
  | .error fault => (.error fault, state)

/-- The state behind commands that are run one after the other. -/
def after (step : σ → κ → Except Fault ρ × σ) (state : σ) (commands : List κ) : σ :=
  commands.foldl (fun state command => (step state command).2) state

section Step

variable {run : σ → κ → Except Fault (ρ × σ)} {state : σ} {command : κ}

theorem step_of_ok {reply : ρ} {next : σ} (h : run state command = .ok (reply, next)) :
    step run state command = (.ok reply, next) := by
  rw [step, h]

theorem step_of_error {fault : Fault} (h : run state command = .error fault) :
    step run state command = (.error fault, state) := by
  rw [step, h]

/-- What holds of a state and of whatever a command makes of it holds behind the command. -/
theorem step_keeps (holds : σ → Prop) (hstate : holds state)
    (h : ∀ reply next, run state command = .ok (reply, next) → holds next) :
    holds (step run state command).2 := by
  cases hrun : run state command with
  | ok result =>
    rw [step_of_ok hrun]
    exact h result.1 result.2 hrun
  | error fault =>
    rw [step_of_error hrun]
    exact hstate

end Step

/-- What every command keeps, a list of them keeps. -/
theorem after_keeps {step : σ → κ → Except Fault ρ × σ} (holds : σ → Prop)
    (h : ∀ state command, holds state → holds (step state command).2) {state : σ}
    (hstate : holds state) (commands : List κ) : holds (after step state commands) :=
  List.foldlRecOn commands _ hstate fun state hstate command _ => h state command hstate

end Commands

end AsmBlock
