import Dvcs.Mercurial.Inspect

/-!
This module contains the cleaning of a working directory. Every step is tried, whatever came of
those before it.
-/

namespace Dvcs

namespace Mercurial

/-- Deletes the files that the status command lists. -/
def deleteListed (r : WorkingCopy) (kind : Text) : Op Unit := do
  let outcome ← check r ["status", kind, "--no-status"]
  outcome.stdout.forM fun name => Op.unlinkIfThere (r.root.join (Path.ofText name))

/-- Takes a step; its failure is the answer, other errors are not caught. -/
def attempt (step : Op Unit) : Op (List StepFailure) := fun w =>
  match step w with
  | .ok _ w => .ok [] w
  | .error (.process outcome) w => .ok [.process outcome] w
  | .error (.system e) w => .ok [.system e] w
  | .error e w => .error e w

/-- Discards changes, unknown and ignored files. An interrupted merge and an interrupted transaction
are ended first, if there are any. -/
def clean (r : WorkingCopy) : Op Unit := do
  discard <| run r ["merge", "--abort"]
  discard <| run r ["recover"]
  let ignored ← attempt (deleteListed r "--ignored")
  let unknown ← attempt (deleteListed r "--unknown")
  let reverted ← attempt (discard <| check r ["revert", "--no-backup", "--all"])
  match ignored ++ unknown ++ reverted with
  | [] => return ()
  | first :: others => throw (.refusal (.cleanFailed (first :: others) first))

end Mercurial

end Dvcs
