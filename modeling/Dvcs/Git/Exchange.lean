import Dvcs.Git.Inspect

/-!
This module contains the exchange of commits with other repositories, the settings of remotes, and
the making of repositories.
-/

namespace Dvcs

namespace Git

/-- The hash on a line about a fetched head, if the head is one to merge. -/
def fetchedHash? (line : Text) : Option Text :=
  if line = [] || line.includes "\tnot-for-merge\t" then none
  else some (line.takeWhile (· ≠ .char '\t'))

/-- Fetches a refspec; the answer is the fetched head, else the commit that is checked out. -/
def fetch (r : WorkingCopy) (uri refspec : Text) : Op Hash := do
  discard <| check r ["fetch", uri, refspec]
  let content ← Op.readFile (r.path [gitDirectory, "FETCH_HEAD"])
  let text ← Op.ofExcept ((Text.decodeStrict content).mapError .codec)
  let heads := text.unifyNewlines.lines.filterMap fetchedHash?
  if 1 < heads.eraseDups.length then
    throw (.refusal (.fetchedHeads refspec uri heads.eraseDups.length))
  match heads with
  | hash :: _ => Op.ofExcept (Hash.ofText hash)
  | [] =>
    match ← head r with
    | some hash => return hash
    | none => throw (.refusal (.nothingFetched uri))

/-- Pushes a commit to a branch, or to a reference that is given in full. -/
def push (r : WorkingCopy) (hash : Hash) (uri ref : Text) (force : Bool) : Op Unit := do
  let target := if ref.startsWith "refs/" then ref else "refs/heads/" ++ ref
  let refspec := hash.hex ++ ":" ++ target
  discard <| check r (if force then ["push", "--force", uri, refspec] else ["push", uri, refspec])

def pushAll (r : WorkingCopy) (uri : Text) : Op Unit := do
  discard <| check r ["push", "--all", uri]
  discard <| check r ["push", "--tags", uri]

/-- Pulls as far as the branch only has to move forward. -/
def pull (r : WorkingCopy) (remote refspec : Option Text) : Op Unit :=
  discard <| check r ("pull" :: "--ff-only" :: (nonEmpty remote).getD "origin" :: refspec.toList)

/-- The section with the settings of a remote. -/
def remoteSection (remote : Text) : Text := "remote \"" ++ remote ++ "\""

def setValue (sect option value : Text) : Op Unit := do
  record (.valueSet sect option value)
  modifyState fun s => { s with config := s.config.set sect option value }

/-- Sets where a remote is; without a location to push to, that one is left alone. -/
def setPaths (r : WorkingCopy) (remote pull : Text) (push : Option Text) : Op Unit := do
  ensureOpen r
  setValue (remoteSection remote) "url" pull
  match nonEmpty push with
  | some push => setValue (remoteSection remote) "pushurl" push
  | none => pure ()
  record .configWritten

def addRemote (r : WorkingCopy) (name path : Text) : Op Unit := do
  ensureOpen r
  record (.remoteCreated name path)

/-- Where a remote is fetched from. -/
def pullPath (r : WorkingCopy) (remote : Text) : Op (Option Text) :=
  configLast r ("remote." ++ remote ++ ".url")

/-- Where a remote is pushed to; without a setting of its own, where it is fetched from. -/
def pushPath (r : WorkingCopy) (remote : Text) : Op (Option Text) := do
  match ← configLast r ("remote." ++ remote ++ ".pushurl") with
  | some path => return some path
  | none => pullPath r remote

/-- The command that git is run by unless told otherwise. -/
def usualCommand : Text := "git"

/-- A working copy. Any other than the usual command is announced first. -/
def workingCopy (path : Path) (command : Text) (temporary : Option Path) : Op WorkingCopy := do
  let r ← WorkingCopy.locate .git path command temporary
  if command ≠ usualCommand then record (.executableSet command)
  return r

def defaultBranch : Branch := ⟨"master"⟩

/-- Makes an empty repository. -/
def init (r : WorkingCopy) : Op WorkingCopy := do
  Op.makeDirectory r.root
  close r
  record (.initialized r.root defaultBranch.name)
  Op.makeDirectory (r.path [gitDirectory])
  record (.environmentSet toolEnvironment)
  markOpen r.root
  return r

def reinitialize (r : WorkingCopy) : Op WorkingCopy := do
  r.wipe
  init r

def runClone (source : Text) (target : Path) (environment : Option Environment) :
    Op (Except Failure Unit) := do
  record (.cloned source target environment)
  match ← nextAnswer with
  | .output _ => do
    record .closed
    return .ok ()
  | .failure _ report =>
    return .error { report with command := ["git", "clone", source, target.toText] }
  | .unstarted message => throw (.unstarted message)

/-- Clones a repository, seen from the current directory. -/
def clone (uri : Text) (target : Path) (command : Text) (temporary : Option Path) :
    Op WorkingCopy := do
  let target ← Op.absolute target
  match ← runClone uri target (some toolEnvironment) with
  | .ok _ => workingCopy target command temporary
  | .error failure => throw (.process failure.outcome)

/-- Clones this repository to a local directory. -/
def copyTo (r : WorkingCopy) (target : Path) : Op WorkingCopy := do
  let target ← Op.absolute target
  match ← runClone r.root.toText target none with
  | .ok _ => workingCopy target r.command r.temporary
  | .error failure => throw (.git failure)

/-- The repository that a path is in, unless it is a bare one. -/
def containing (path : Path) (command : Text) (temporary : Option Path) :
    Op (Option WorkingCopy) := do
  record (.opened path true)
  let s ← state
  if !s.opens then return none
  let found ← s.workingTree.mapM fun root => workingCopy root command temporary
  record .closed
  return found

end Git

end Dvcs
