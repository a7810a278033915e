import Dvcs.Repository

/-!
This module contains the running of git commands. A repository is opened when it is first needed.
-/

namespace Dvcs

namespace Git

/-- The system and user configuration is left out, so that the output is stable. -/
def toolEnvironment : Environment :=
  [("GIT_CONFIG_NOSYSTEM", "1"), ("GIT_CONFIG_GLOBAL", "/dev/null"), ("GIT_TERMINAL_PROMPT", "0")]

def record (e : Event) : Op Unit := Op.record (.git e)

def state : Op State := return (← get).git

def modifyState (f : State → State) : Op Unit := modify fun w => { w with git := f w.git }

def markOpen (root : Path) : Op Unit :=
  modifyState fun s => { s with openRoots := root :: s.openRoots }

/-- Opens the repository of a working copy unless it is open. -/
def ensureOpen (r : WorkingCopy) : Op Unit := do
  if (← state).openRoots.contains r.root then return ()
  record (.opened r.root false)
  if !(← state).opens then throw (.refusal (.notGit r.root.toText))
  record (.environmentSet toolEnvironment)
  markOpen r.root

def close (r : WorkingCopy) : Op Unit := do
  if (← state).openRoots.contains r.root then
    record .closed
    modifyState fun s => { s with openRoots := s.openRoots.filter (· ≠ r.root) }

/-- The answer to the next command. -/
def nextAnswer : Op Answer := do
  let s ← state
  modifyState fun s => { s with answers := s.answers.tail }
  return s.answers.headD (.output [])

/-- Lets a command that answers so do to files what it does; that is nothing if it does not run. -/
def touchFiles (answer : Answer) : Op Unit :=
  modify fun w => { w with
    files :=
      if answer.starts then (w.git.touched.headD []).foldl FileTree.change w.files else w.files
    git := { w.git with touched := w.git.touched.tail } }

/-- Runs a command. Only the failure of a command that has run is a result. -/
def execute (r : WorkingCopy) (arguments : List Text) (environment : Option Environment := none)
    (taken : Taken := .text) : Op (Except Failure Bytes) := do
  ensureOpen r
  let w ← get
  record (.command arguments environment taken (w.attached arguments) false)
  let answer ← nextAnswer
  touchFiles answer
  match answer with
  | .output stdout => return .ok stdout
  | .failure _ report => return .error { report with command := "git" :: arguments }
  | .unstarted message => throw (.unstarted message)

/-- Runs a command that has to succeed. -/
def check (r : WorkingCopy) (arguments : List Text) (environment : Option Environment := none) :
    Op Bytes := do
  match ← execute r arguments environment with
  | .ok stdout => return stdout
  | .error failure => throw (.process failure.outcome)

/-- A time in the form that git takes. -/
def date (t : ClockTime) : Text := Text.ofInt t.seconds ++ " +0000"

/-- The variables that name the author or the committer. -/
def identity (role name email : Text) (time : Option ClockTime) : Environment :=
  let named (part : Text) : Text := "GIT_" ++ role ++ "_" ++ part
  (named "NAME", name) :: (named "EMAIL", email) ::
    time.toList.map fun time => (named "DATE", date time)

end Git

end Dvcs
