import Dvcs.Process

/-!
This module contains the handles of commands that have been started. The first of the operations
that end a command fixes its outcome; after that the handle answers with this outcome only.
-/

namespace Dvcs

/-- A started command. -/
structure Handle where
  mode : Mode
  command : List Text
  response : Response
  /-- The part of the output that has not been read. -/
  unread : Bytes
  outcome : Option Outcome := none
  /-- How often it has been asked to end. -/
  terminated : Nat := 0
  /-- How often it has been waited for. -/
  reaped : Nat := 0
deriving DecidableEq, Repr

namespace Handle

def start (mode : Mode) (command : List Text) (response : Response) : Handle :=
  { mode := mode, command := command, response := response, unread := response.stdout }

def isFinished (h : Handle) : Bool := h.outcome.isSome

/-- Collects the status and the error output, with `stdout` as the output that was left. -/
def reap (h : Handle) (stdout : List Text) : Outcome × Handle :=
  match h.response.startError with
  | some code =>
    let outcome := Response.startFailure h.command code
    (outcome, { h with outcome := some outcome })
  | none =>
    let outcome : Outcome :=
      { command := h.command
        status := if h.terminated = 0 then h.response.status else h.response.stoppedStatus
        stdout := stdout
        stderr := Text.outputLines h.response.stderr }
    (outcome, { h with outcome := some outcome, unread := [], reaped := h.reaped + 1 })

/-- Reads the rest of the output and waits for the end. -/
def wait (h : Handle) : Outcome × Handle :=
  match h.outcome with
  | some outcome => (outcome, h)
  | none => h.reap (Text.outputLines h.unread)

/-- Ends the command, if it is still running, without reading the rest of its output. -/
def abort (h : Handle) : Outcome × Handle :=
  match h.outcome with
  | some outcome => (outcome, h)
  | none =>
    let stops := h.response.startError.isNone && !h.response.exited
    ({ h with terminated := h.terminated + stops.toNat }).reap []

/-- Waits for the end, and refuses an outcome without success. -/
def check (h : Handle) : Except Outcome Outcome × Handle :=
  match h.wait with
  | (outcome, h) => (if outcome.status = 0 then .ok outcome else .error outcome, h)

/-- Why a block that uses a command is left. -/
inductive Leave where
  | done
  | failed
  /-- Its consumer wants no more of it. -/
  | closed
deriving DecidableEq, Repr

/-- What happens to the command when the block that uses it is left. -/
def leave (h : Handle) (why : Leave) : Handle :=
  match h.mode, why with
  | .stream, .closed => h.abort.2
  | _, _ => h.wait.2

/-- Cuts the first line off some output. -/
def cutLine : Bytes → Bytes × Bytes
  | [] => ([], [])
  | b :: bs =>
    if b = 10 then ([], bs)
    else
      match cutLine bs with
      | (line, rest) => (b :: line, rest)

/-- Whether lines can still be read. -/
def isReadable (h : Handle) : Bool := h.response.startError.isNone && !h.isFinished

/-- The next line of the output. -/
def line (h : Handle) : Option Text × Handle :=
  if h.isReadable && !h.unread.isEmpty then
    match cutLine h.unread with
    | (line, rest) => (some (Text.decode line), { h with unread := rest })
  else (none, h)

theorem length_cutLine (b : UInt8) (bs : Bytes) : (cutLine (b :: bs)).2.length ≤ bs.length := by
  induction bs generalizing b with
  | nil => rw [cutLine]; split <;> simp [cutLine]
  | cons c bs ih =>
    have := ih c
    rw [cutLine]
    split
    · simp
    · simp
      omega

/-- The lines of some output, cut off one by one. -/
def linesOf (bs : Bytes) : List Text :=
  match bs with
  | [] => []
  | b :: bs => Text.decode (cutLine (b :: bs)).1 :: linesOf (cutLine (b :: bs)).2
termination_by bs.length
decreasing_by
  have := length_cutLine b bs
  simp
  omega

/-- The handle after the next `n` lines have been read. -/
def skip (h : Handle) : Nat → Handle
  | 0 => h
  | n + 1 => h.line.2.skip n

/-- The remaining lines of the output. -/
def lines (h : Handle) : List Text × Handle :=
  if h.isReadable then (linesOf h.unread, { h with unread := [] }) else ([], h)

end Handle

end Dvcs
