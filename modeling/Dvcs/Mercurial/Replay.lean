import Dvcs.Mercurial.Inspect

/-!
This module contains squashing and rebasing, which put commits in the place of others. Commits are
exported before they are stripped; when they cannot be imported again, they are restored from the
backup of the strip.
-/

namespace Dvcs

namespace Mercurial

/-- Writes the commits of a revset to a file. -/
def exportTo (r : WorkingCopy) (revset : Text) (target : Path) : Op Unit :=
  discard <| check r ["export", "--git", "--output=" ++ target.toText, "--rev=" ++ revset]

/-- The backup that a line of the output of a strip names. -/
def backupOfLine? (line : Text) : Option Path :=
  match Text.cut? "saved backup bundle to " line with
  | some (_, c :: rest) => some (Path.ofText (Text.trim (c :: rest)))
  | _ => none

/-- Removes the commits of a revset from history; the answer is the backup, if one is reported. -/
def strip (r : WorkingCopy) (revset : Text) : Op (Option Path) := do
  let outcome ← check r ["--config", "extensions.strip=", "strip", "--rev=" ++ revset]
  return (outcome.stdout ++ outcome.stderr).findSome? backupOfLine?

/-- The commands that restore a backup and go back to a commit. Updating to a bookmark activates it,
moving it does not. -/
def restoration (backup : Path) (hash : Hash) (bookmark : Text) : List (List Text) :=
  ["unbundle", backup.toText] :: ["update", "--clean", hash.hex] ::
    if bookmark = [] then []
    else
      [["bookmark", "--force", "--rev=" ++ hash.hex, "--", bookmark],
        ["update", "--clean", "--", bookmark]]

/-- Runs the commands that restore a backup, whether they succeed or not. -/
def restore (r : WorkingCopy) (backup : Option Path) (hash : Hash) (bookmark : Text) : Op Unit :=
  match backup with
  | some backup =>
    (restoration backup hash bookmark).forM fun arguments => discard <| run r arguments
  | none => return ()

/-- Imports exported commits; when that fails, what was stripped is restored. -/
def importOrRestore (r : WorkingCopy) (arguments : List Text) (backup : Option Path) (hash : Hash)
    (bookmark : Text) : Op Unit := do
  let outcome ← run r ("import" :: arguments)
  if !outcome.succeeded then
    restore r backup hash bookmark
    throw (.process outcome)

def withPatchFile (r : WorkingCopy) (use : Path → Op α) : Op α :=
  Op.withTempFile r.temporary ".patch" [] use

/-- Folds the commits behind the one that the working directory is based on, up to a given one, into
the working directory. -/
def squash (r : WorkingCopy) (last : Hash) : Op Unit := do
  match ← head r with
  | none => throw (.refusal .squashInEmpty)
  | some base =>
    let revset := throughFromBase last
    withPatchFile r fun patch => do
      exportTo r revset patch
      let backup ← strip r revset
      importOrRestore r ["--no-commit", patch.toText] backup base []

/-- Moves the active bookmark along, if there is one. -/
def moveBookmark (r : WorkingCopy) (bookmark : Text) : Op Unit := do
  if bookmark ≠ [] then discard <| check r ["bookmark", "--force", "--", bookmark]

/-- Whether a revset names any commit. -/
def selectsAny (r : WorkingCopy) (revset : Text) : Op Bool :=
  return !(← check r ["log", "--rev=" ++ revset, hashTemplate]).stdout.isEmpty

/-- The commit that the working directory is based on, if there are commits to replay. -/
def replayed (r : WorkingCopy) (target : Hash) : Op (Option Hash) := do
  match ← head r with
  | none => return none
  | some old => if ← selectsAny r (onlyFrom "." target) then return some old else return none

/-- Replays the commits of the current bookmark on top of a commit. -/
def rebase (r : WorkingCopy) (target : Hash) : Op Unit := do
  if !(← trackedModifications r).isEmpty then throw (.refusal .dirtyRebase)
  let bookmark ← activeBookmark r
  match ← replayed r target with
  | none =>
    discard <| check r ["update", "--", target.hex]
    moveBookmark r bookmark
  | some old =>
    withPatchFile r fun patch => do
      exportTo r (onlyFrom "." target) patch
      discard <| check r ["update", "--", target.hex]
      let backup ← strip r (onlyFrom old.hex target)
      importOrRestore r [patch.toText] backup old bookmark
    moveBookmark r bookmark

end Mercurial

end Dvcs
