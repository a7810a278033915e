import Dvcs.Process.Handle

/-!
This module contains the ends of commands: reading from a command does not end it, and whichever of
the ends comes first, the command is waited for once, and is stopped only by an abort before it has
ended by itself.
-/

namespace Dvcs

namespace Response

/-- Whether the command can be started. -/
def starts (r : Response) : Bool := r.startError.isNone

/-- The status that is reported when nobody stops the command. -/
def finalStatus (r : Response) : Int := if r.starts then r.status else Outcome.notStarted

/-- The lines that can be read from the command. -/
def printed (r : Response) : List Text := if r.starts then Handle.linesOf r.stdout else []

/-- How often the command is waited for; one that does not exist cannot be. -/
def waits (r : Response) : Nat := if r.starts then 1 else 0

end Response

namespace Handle

/-- A command that has not been ended. -/
structure Running (h : Handle) (response : Response) : Prop where
  response : h.response = response
  outcome : h.outcome = none
  terminated : h.terminated = 0
  reaped : h.reaped = 0

theorem running_start (mode : Mode) (command : List Text) (response : Response) :
    (start mode command response).Running response :=
  ⟨rfl, rfl, rfl, rfl⟩

theorem exists_line_eq (h : Handle) : ∃ unread, h.line.2 = { h with unread := unread } := by
  unfold line
  split
  . exact ⟨_, rfl⟩
  . exact ⟨h.unread, rfl⟩

theorem Running.skip {h : Handle} {response : Response} (hrunning : h.Running response) (n : Nat) :
    (h.skip n).Running response := by
  induction n generalizing h with
  | zero => exact hrunning
  | succ n ih =>
    obtain ⟨unread, hline⟩ := h.exists_line_eq
    rw [Handle.skip, hline]
    exact ih ⟨hrunning.response, hrunning.outcome, hrunning.terminated, hrunning.reaped⟩

/-- A command that has been ended, once and for all. -/
structure Ended (h : Handle) (response : Response) (terminated : Nat) : Prop where
  finished : h.isFinished = true
  terminated : h.terminated = terminated
  reaped : h.reaped = response.waits

theorem Running.reap {h : Handle} {response : Response} (hrunning : h.Running response)
    (left : List Text) :
    (h.reap left).1.status = response.finalStatus ∧ (h.reap left).2.Ended response 0 := by
  obtain ⟨rfl, _, hterminated, hreaped⟩ := hrunning
  unfold Handle.reap
  cases hstart : h.response.startError with
  | some code =>
    have hstarts : h.response.starts = false := by simp [Response.starts, hstart]
    constructor
    . simp [Response.finalStatus, hstarts, Response.startFailure]
    . exact ⟨rfl, hterminated, by simp [Response.waits, hstarts, hreaped]⟩
  | none =>
    have hstarts : h.response.starts = true := by simp [Response.starts, hstart]
    constructor
    . simp [Response.finalStatus, hstarts, hterminated]
    . exact ⟨rfl, hterminated, by simp [Response.waits, hstarts, hreaped]⟩

theorem Running.wait {h : Handle} {response : Response} (hrunning : h.Running response) :
    h.wait.1.status = response.finalStatus ∧ h.wait.2.Ended response 0 := by
  unfold Handle.wait
  rw [hrunning.outcome]
  exact hrunning.reap _

theorem Running.abort {h : Handle} {response : Response} (hrunning : h.Running response)
    (hstarts : response.starts = true) : h.abort.2.Ended response (!response.exited).toNat := by
  obtain ⟨rfl, houtcome, hterminated, hreaped⟩ := hrunning
  have hstart : h.response.startError = none := by simpa [Response.starts] using hstarts
  unfold Handle.abort Handle.reap
  rw [houtcome]
  simp only [hstart]
  refine ⟨rfl, ?_, ?_⟩
  . simp [hterminated]
  . simp [Response.waits, hstarts, hreaped]

theorem lines_start (mode : Mode) (command : List Text) (response : Response) :
    (start mode command response).lines.1 = response.printed := by
  unfold lines Response.printed Response.starts isReadable
  cases hstart : response.startError <;> simp [start, hstart, isFinished]

end Handle

end Dvcs
