import Dvcs.Proofs.Process.Ending
import Dvcs.Proofs.Process.Output

/-!
This module contains what the users of a command get that is read while it runs. No line of the
output is lost or told twice, wherever the reading stops, and of all the ends that are asked for the
first one settles what every later one tells.
-/

namespace Dvcs

namespace Handle

/-- The ways to end a command. -/
inductive Ending where
  | wait
  | check
  | abort
  /-- The block that uses the command is left. -/
  | leave (why : Leave)
deriving DecidableEq, Repr

namespace Ending

/-- Ends a command. The answer is what the caller gets, which is nothing when a block is left. -/
def perform (h : Handle) : Ending → Option (Except Outcome Outcome) × Handle
  | wait => (some (.ok h.wait.1), h.wait.2)
  | check => (some h.check.1, h.check.2)
  | abort => (some (.ok h.abort.1), h.abort.2)
  | leave why => (none, h.leave why)

/-- Ends a command in several ways, one after the other. -/
def performAll : List Ending → Handle → List (Option (Except Outcome Outcome)) × Handle
  | [], h => ([], h)
  | e :: es, h =>
    let (answer, h) := e.perform h
    let (answers, h) := performAll es h
    (answer :: answers, h)

/-- What the caller gets when the outcome is known. -/
def answer (outcome : Outcome) : Ending → Option (Except Outcome Outcome)
  | wait | abort => some (.ok outcome)
  | check => some (if outcome.status = 0 then .ok outcome else .error outcome)
  | leave _ => none

/-- Whether the rest of the output is not waited for. -/
def breaksOff : Ending → Bool
  | abort | leave .closed => true
  | wait | check | leave .done | leave .failed => false

/-- A command that has been ended tells the same outcome again and is left alone. -/
theorem perform_of_outcome {h : Handle} {outcome : Outcome} (houtcome : h.outcome = some outcome)
    (e : Ending) : e.perform h = (e.answer outcome, h) := by
  have hwait : h.wait = (outcome, h) := by simp [Handle.wait, houtcome]
  have habort : h.abort = (outcome, h) := by simp [Handle.abort, houtcome]
  cases e with
  | wait => simp [perform, answer, hwait]
  | check => simp [perform, answer, Handle.check, hwait]
  | abort => simp [perform, answer, habort]
  | leave why =>
    simp only [perform, answer, Handle.leave]
    split
    . rw [habort]
    . rw [hwait]

theorem performAll_of_outcome {h : Handle} {outcome : Outcome}
    (houtcome : h.outcome = some outcome) (es : List Ending) :
    performAll es h = (es.map (·.answer outcome), h) := by
  induction es with
  | nil => rfl
  | cons e es ih =>
    rw [performAll, perform_of_outcome houtcome]
    dsimp only
    rw [ih]
    rfl

theorem outcome_reap (h : Handle) (left : List Text) :
    (h.reap left).2.outcome = some (h.reap left).1 := by
  unfold Handle.reap
  split <;> rfl

theorem outcome_wait (h : Handle) : h.wait.2.outcome = some h.wait.1 := by
  unfold Handle.wait
  split
  . assumption
  . exact outcome_reap _ _

theorem outcome_abort (h : Handle) : h.abort.2.outcome = some h.abort.1 := by
  unfold Handle.abort
  split
  . assumption
  . exact outcome_reap _ _

/-- What a stream reports when it is ended in some way. -/
def settle (h : Handle) (e : Ending) : Outcome × Handle := if e.breaksOff then h.abort else h.wait

theorem perform_eq_settle {h : Handle} (hmode : h.mode = .stream) (e : Ending) :
    e.perform h = (e.answer (settle h e).1, (settle h e).2) := by
  cases e with
  | wait => rfl
  | check => rfl
  | abort => rfl
  | leave why => cases why <;> simp [perform, answer, settle, breaksOff, Handle.leave, hmode]

theorem outcome_settle (h : Handle) (e : Ending) :
    (settle h e).2.outcome = some (settle h e).1 := by
  unfold settle
  split
  . exact outcome_abort h
  . exact outcome_wait h

/-- The first end settles what all of them tell, and the later ones do nothing more. -/
theorem performAll_cons {h : Handle} (hmode : h.mode = .stream) (first : Ending)
    (more : List Ending) :
    performAll (first :: more) h =
      ((first :: more).map (·.answer (settle h first).1), (settle h first).2) := by
  rw [performAll, perform_eq_settle hmode]
  dsimp only
  rw [performAll_of_outcome (outcome_settle h first)]
  rfl

end Ending

/-- The next `n` lines of the output, fewer if it ends before. -/
def taken (h : Handle) : Nat → List Text
  | 0 => []
  | n + 1 => h.line.1.toList ++ h.line.2.taken n

/-- A stream that has been read from, and has not been ended. -/
structure Streaming (command : List Text) (response : Response) (h : Handle) : Prop
    extends h.Running response where
  mode : h.mode = .stream
  command : h.command = command

theorem streaming_start (command : List Text) (response : Response) :
    Streaming command response (start .stream command response) :=
  ⟨running_start .stream command response, rfl, rfl⟩

theorem Streaming.line {command : List Text} {response : Response} {h : Handle}
    (hstreaming : Streaming command response h) : Streaming command response h.line.2 := by
  obtain ⟨unread, hline⟩ := h.exists_line_eq
  rw [hline]
  exact ⟨⟨hstreaming.response, hstreaming.outcome, hstreaming.terminated, hstreaming.reaped⟩,
    hstreaming.mode, hstreaming.command⟩

theorem Streaming.skip {command : List Text} {response : Response} {h : Handle}
    (hstreaming : Streaming command response h) (n : Nat) :
    Streaming command response (h.skip n) := by
  induction n generalizing h with
  | zero => exact hstreaming
  | succ n ih => exact ih hstreaming.line

theorem Streaming.isReadable {command : List Text} {response : Response} {h : Handle}
    (hstreaming : Streaming command response h) : h.isReadable = response.starts := by
  simp [Handle.isReadable, isFinished, hstreaming.response, hstreaming.outcome, Response.starts]

theorem line_append {command : List Text} {response : Response} {h : Handle}
    (hstreaming : Streaming command response h) (hstarts : response.starts = true) :
    h.line.1.toList ++ linesOf h.line.2.unread = linesOf h.unread := by
  unfold line
  rw [hstreaming.isReadable, hstarts]
  cases hunread : h.unread with
  | nil => simp [hunread]
  | cons b bs =>
    conv => rhs; rw [linesOf]
    simp

/-- The lines that have been read and the lines that have not are all the lines. -/
theorem taken_append {command : List Text} {response : Response} {h : Handle}
    (hstreaming : Streaming command response h) (hstarts : response.starts = true) (n : Nat) :
    h.taken n ++ linesOf (h.skip n).unread = linesOf h.unread := by
  induction n generalizing h with
  | zero => rfl
  | succ n ih =>
    rw [taken, Handle.skip, List.append_assoc, ih hstreaming.line, line_append hstreaming hstarts]

theorem taken_of_not_starts {command : List Text} {response : Response} {h : Handle}
    (hstreaming : Streaming command response h) (hstarts : response.starts = false) (n : Nat) :
    h.taken n = [] := by
  induction n generalizing h with
  | zero => rfl
  | succ n ih =>
    rw [taken, ih hstreaming.line]
    unfold Handle.line
    rw [hstreaming.isReadable, hstarts]
    rfl

/-- What is reported of a stream from which the lines `read` have been taken when `e` is the first
end that is asked for. -/
inductive Reports (command : List Text) (response : Response) (read : List Text) (e : Ending) :
    Outcome → Prop
  /-- The output that is left is read to its end. -/
  | drained {left : List Text} (hstarts : response.startError = none)
    (hdrains : e.breaksOff = false) (hall : read ++ left = Text.outputLines response.stdout) :
    Reports command response read e
      { command := command
        status := response.status
        stdout := left
        stderr := Text.outputLines response.stderr }
  /-- The output that is left is given up. -/
  | brokenOff (hstarts : response.startError = none) (hbreaks : e.breaksOff = true) :
    Reports command response read e
      { command := command
        status := if response.exited then response.status else response.stoppedStatus
        stderr := Text.outputLines response.stderr }
  | notStarted {code : Nat} (hcode : response.startError = some code) (hread : read = []) :
    Reports command response read e
      { command := command
        status := Outcome.notStarted
        exception := some { code := code, path := command.head? } }

theorem Streaming.wait_eq {command : List Text} {response : Response} {h : Handle}
    (hstreaming : Streaming command response h) (hstarts : response.startError = none) :
    h.wait.1 =
      { command := command
        status := response.status
        stdout := Text.outputLines h.unread
        stderr := Text.outputLines response.stderr } := by
  unfold Handle.wait Handle.reap
  rw [hstreaming.outcome, hstreaming.response, hstreaming.command, hstreaming.terminated]
  simp [hstarts]

theorem Streaming.abort_eq {command : List Text} {response : Response} {h : Handle}
    (hstreaming : Streaming command response h) (hstarts : response.startError = none) :
    h.abort.1 =
      { command := command
        status := if response.exited then response.status else response.stoppedStatus
        stderr := Text.outputLines response.stderr } := by
  unfold Handle.abort Handle.reap
  simp only [hstreaming.outcome, hstreaming.response, hstreaming.command, hstreaming.terminated,
    hstarts]
  cases response.exited <;> rfl

theorem Streaming.settle_of_startError {command : List Text} {response : Response} {h : Handle}
    (hstreaming : Streaming command response h) {code : Nat}
    (hcode : response.startError = some code) (e : Ending) :
    Ending.settle h e =
      (Response.startFailure command code,
        { h with outcome := some (Response.startFailure command code) }) := by
  have hresponse := hstreaming.response
  have houtcome := hstreaming.outcome
  have hcommand := hstreaming.command
  have hterminated := hstreaming.terminated
  unfold Ending.settle Handle.abort Handle.wait Handle.reap
  simp only [hresponse, houtcome, hcommand, hcode, hterminated]
  split <;> simp

theorem Streaming.ended_settle {command : List Text} {response : Response} {h : Handle}
    (hstreaming : Streaming command response h) (e : Ending) :
    (Ending.settle h e).2.Ended response
      (e.breaksOff && response.starts && !response.exited).toNat := by
  cases hcode : response.startError with
  | some code =>
    have hstarts : response.starts = false := by simp [Response.starts, hcode]
    rw [hstreaming.settle_of_startError hcode, hstarts, Bool.and_false, Bool.false_and]
    refine ⟨rfl, hstreaming.terminated, ?_⟩
    simp [Response.waits, hstarts, hstreaming.reaped]
  | none =>
    have hstarts : response.starts = true := by simp [Response.starts, hcode]
    unfold Ending.settle
    rw [hstarts]
    cases e.breaksOff with
    | true => exact hstreaming.toRunning.abort hstarts
    | false => exact hstreaming.toRunning.wait.2

/-- Reading `n` lines of a stream and ending it then in any ways: the first end settles the outcome
that all of them tell, with the lines that have not been read, and the command is waited for once,
and stopped only if the first end breaks it off while it is still running. Line by line or as a
whole, the output gives the same lines, and they give the output back. -/
theorem stream_outcome (command : List Text) (response : Response) (n : Nat) (first : Ending)
    (more : List Ending) :
    let h := (start .stream command response).skip n
    (∃ outcome h',
      Ending.performAll (first :: more) h = ((first :: more).map (·.answer outcome), h') ∧
      (first.perform h).2 = h' ∧
      Reports command response ((start .stream command response).taken n) first outcome ∧
      h'.outcome = some outcome ∧
      h'.reaped = response.waits ∧
      h'.terminated = (first.breaksOff && response.starts && !response.exited).toNat) ∧
    (start .stream command response).lines.1 =
      (if response.starts then Text.outputLines response.stdout else []) ∧
    (Text.encode (Text.joinLines (Text.outputLines response.stdout)) = response.stdout ∨
      Text.encode (Text.joinLines (Text.outputLines response.stdout)) ++ [10] =
        response.stdout) := by
  intro h
  have hstart := streaming_start command response
  have hstreaming : Streaming command response h := hstart.skip n
  have hended := hstreaming.ended_settle first
  refine ⟨⟨(Ending.settle h first).1, (Ending.settle h first).2, ?_, ?_, ?_, ?_, ?_, ?_⟩, ?_, ?_⟩
  . exact Ending.performAll_cons hstreaming.mode first more
  . rw [Ending.perform_eq_settle hstreaming.mode]
  . cases hcode : response.startError with
    | some code =>
      have hstarts : response.starts = false := by simp [Response.starts, hcode]
      rw [hstreaming.settle_of_startError hcode]
      exact .notStarted hcode (taken_of_not_starts hstart hstarts n)
    | none =>
      have hstarts : response.starts = true := by simp [Response.starts, hcode]
      have hall := taken_append hstart hstarts n
      rw [linesOf_eq_outputLines, linesOf_eq_outputLines] at hall
      unfold Ending.settle
      split
      . next hbreaks =>
        rw [hstreaming.abort_eq hcode]
        exact .brokenOff hcode hbreaks
      . next hdrains =>
        rw [hstreaming.wait_eq hcode]
        exact .drained hcode (eq_false_of_ne_true hdrains) hall
  . exact Ending.outcome_settle h first
  . exact hended.reaped
  . exact hended.terminated
  . rw [lines_start, Response.printed, linesOf_eq_outputLines]
  . exact Text.encode_joinLines_outputLines response.stdout

end Handle

end Dvcs
