import Dvcs.Mercurial.Inspect

/-!
This module contains the exchange of commits with other repositories, and the making of
repositories.
-/

namespace Dvcs

namespace Mercurial

/-- The heads of history; hg fails where there are none. -/
def heads (r : WorkingCopy) : Op (List Hash) := do
  let outcome ← run r ["heads", hashTemplate]
  if outcome.succeeded then
    return (← outcome.stdout.mapM fun line => Op.ofExcept (Hash.ofText line)).eraseDups
  else return []

/-- Pulls a revision; the answer is the head that appeared, else the base of the working
directory. -/
def fetch (r : WorkingCopy) (uri refspec : Text) : Op Hash := do
  let old ← heads r
  discard <| check r ["pull", "--rev=" ++ refspec, "--", uri]
  let appeared := (← heads r).filter fun h => !old.contains h
  match appeared with
  | [hash] => return hash
  | [] =>
    match ← head r with
    | some hash => return hash
    | none => throw (.refusal (.nothingFetched uri))
  | _ => throw (.refusal (.newHeads refspec uri appeared.length))

/-- Status 1 says that there was nothing to push. -/
def runPush (r : WorkingCopy) (arguments : List Text) : Op Unit := do
  let outcome ← run r ("push" :: arguments)
  if outcome.status ≠ 0 && outcome.status ≠ 1 then throw (.process outcome)

/-- Pushes a commit to a branch of a remote. -/
def push (r : WorkingCopy) (hash : Hash) (uri ref : Text) (force : Bool) : Op Unit :=
  runPush r (("--rev=" ++ hash.hex) ::
    if force then ["--force", "--", uri ++ "#" ++ ref] else ["--", uri ++ "#" ++ ref])

def pushAll (r : WorkingCopy) (uri : Text) : Op Unit := runPush r ["--new-branch", "--", uri]

/-- Pulls and updates the working directory. -/
def pull (r : WorkingCopy) (remote refspec : Option Text) : Op Unit := do
  let named : List Text := refspec.toList.map ("--branch=" ++ ·)
  let source : List Text := ["--", (nonEmpty remote).getD "default"]
  discard <| check r ("pull" :: "--update" :: (named ++ source))

def init (r : WorkingCopy) : Op WorkingCopy := do
  Op.makeDirectory r.root
  discard <| check r ["init"]
  return r

def reinitialize (r : WorkingCopy) : Op WorkingCopy := do
  r.wipe
  init r

/-- Clones a repository, seen from the current directory. -/
def clone (uri : Text) (target : Path) (command : Text) (temporary : Option Path) :
    Op WorkingCopy := do
  let copy ← WorkingCopy.locate .mercurial target command temporary
  let here : WorkingCopy := { copy with root := (← get).directory }
  discard <| check here ["clone", "--", uri, copy.root.toText]
  return copy

/-- Clones this repository to a local directory. -/
def copyTo (r : WorkingCopy) (target : Path) : Op WorkingCopy := do
  let copy ← WorkingCopy.locate .mercurial target r.command r.temporary
  discard <| check r ["clone", "--", r.root.toText, copy.root.toText]
  return copy

/-- The repository that a directory is in. -/
def containing (path : Path) (command : Text) (temporary : Option Path) :
    Op (Option WorkingCopy) := do
  let here ← WorkingCopy.locate .mercurial path command temporary
  if !(← Op.isDirectory here.root) then return none
  let outcome ← run here ["root"]
  match outcome.succeeded, outcome.stdout with
  | true, [line] =>
    return some (← WorkingCopy.locate .mercurial (Path.ofText line) command temporary)
  | _, _ => return none

end Mercurial

end Dvcs
