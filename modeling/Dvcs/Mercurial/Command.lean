import Dvcs.Repository

/-!
This module contains the running of hg commands.
-/

namespace Dvcs

namespace Mercurial

/-- The user and system configuration is left out, so that the output is stable. -/
def toolEnvironment : Environment := [("HGRCPATH", ""), ("HGPLAIN", "1"), ("HGENCODING", "utf-8")]

/-- Prints the hash of a commit on a line of its own. -/
def hashTemplate : Text := "--template=\x7bnode\x7d\\n"

/-- Runs a command to its end, however it ends. -/
def run (r : WorkingCopy) (arguments : List Text) : Op Outcome :=
  Op.command .capture r.root toolEnvironment (r.command :: arguments) Handle.wait

/-- Runs a command that has to succeed. -/
def check (r : WorkingCopy) (arguments : List Text) : Op Outcome := do
  match ← Op.command .capture r.root toolEnvironment (r.command :: arguments) Handle.check with
  | .ok outcome => return outcome
  | .error outcome => throw (.process outcome)

/-- The changed files that are tracked. -/
def trackedModifications (r : WorkingCopy) : Op (List Text) :=
  return (← check r ["status", "--modified", "--added", "--removed", "--deleted",
    "--no-status"]).stdout

end Mercurial

end Dvcs
