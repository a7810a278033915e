import Dvcs.Git.Inspect

/-!
This module contains the operations that change a git repository or its working tree.
-/

namespace Dvcs

namespace Git

/-- Checks out a commit or branch. Without force, changes to tracked files are in the way. -/
def checkout (r : WorkingCopy) (target : Target) (force : Bool) : Op Unit := do
  if !force then
    if ← isDirty r false then throw (.refusal (.dirtyCheckout target.text))
  discard <| check r (if force then ["checkout", "--force", target.text, "--"]
    else ["checkout", target.text, "--"])

/-- The variables that name the committer of a request. -/
def committerIdentity (c : CommitRequest) (date : Option ClockTime) : Environment :=
  identity "COMMITTER" ((nonEmpty c.committerName).getD c.author.name)
    ((nonEmpty c.committerEmail).getD (c.author.email.getD [])) date

/-- Commits every tracked change. -/
def commit (r : WorkingCopy) (c : CommitRequest) : Op Hash := do
  let author := identity "AUTHOR" c.author.name (c.author.email.getD []) c.authorDate
  let committer := committerIdentity c (c.committerDate <|> c.authorDate)
  discard <| check r ["commit", "--all", "--message=" ++ c.message] (some (author ++ committer))
  checkedOut r

/-- Replaces the commit that is checked out. -/
def amend (r : WorkingCopy) (c : CommitRequest) : Op Hash := do
  let author := c.author.name ++ " <" ++ c.author.email.getD [] ++ ">"
  discard <| check r
    ["commit", "--amend", "--all", "--message=" ++ c.message, "--author=" ++ author]
    (some (committerIdentity c none))
  checkedOut r

/-- Makes a tag with a message. The tagger is taken from the committer. -/
def tag (r : WorkingCopy) (hash : Hash) (name message : Text) (author : Author) : Op Tag := do
  discard <| check r ["tag", "--annotate", "--message=" ++ message, name, hash.hex]
    (some (identity "COMMITTER" author.name (author.email.getD []) none))
  return ⟨name⟩

def branch (r : WorkingCopy) (hash : Hash) (name : Text) : Op Branch := do
  discard <| check r ["branch", name, hash.hex]
  return ⟨name⟩

/-- Rebases the current branch. A rebase that fails is rolled back. -/
def rebase (r : WorkingCopy) (hash : Hash) (committer : Author) : Op Unit := do
  let environment := identity "COMMITTER" committer.name (committer.email.getD []) none
  match ← execute r ["rebase", hash.hex] (some environment) with
  | .ok _ => return ()
  | .error failure => do
    discard <| execute r ["rebase", "--abort"]
    throw (.process failure.outcome)

def squash (r : WorkingCopy) (hash : Hash) : Op Unit :=
  discard <| check r ["merge", "--squash", hash.hex]

/-- Merges without committing. An identity is needed even so: the given one, or the configured
one. -/
def merge (r : WorkingCopy) (hash : Hash) (strategy committerName committerEmail : Option Text) :
    Op Unit := do
  let name ←
    match nonEmpty committerName with
    | some name => pure (some name)
    | none => username r
  let configured ← configLast r "user.email"
  let email := nonEmpty committerEmail <|> configured
  let environment : Environment :=
    match nonEmpty name, nonEmpty email with
    | some name, some email =>
      identity "AUTHOR" name email none ++ identity "COMMITTER" name email none
    | _, _ => []
  let options : List Text := strategy.toList.map ("--strategy=" ++ ·)
  discard <| check r ("merge" :: "--no-commit" :: "--no-ff" :: (options ++ [hash.hex]))
    (some environment)

def apply (r : WorkingCopy) (change : Change) (force : Bool) : Op Unit := do
  let options : List Text := "apply" :: "--unidiff-zero" :: if force then [] else ["--index"]
  match change with
  | .file path => discard <| check r (options ++ [path.toText])
  | .diff diff =>
    Op.withTempFile r.temporary ".patch" diff.toBytes fun path =>
      discard <| check r (options ++ [path.toText])

def add (r : WorkingCopy) (paths : List Path) : Op Unit :=
  discard <| check r ("add" :: "--" :: paths.map Path.toText)

def remove (r : WorkingCopy) (paths : List Path) : Op Unit :=
  discard <| check r ("rm" :: "--" :: paths.map Path.toText)

def move (r : WorkingCopy) (source target : Path) : Op Unit :=
  discard <| check r ["mv", "--", source.toText, target.toText]

/-- A path as messages about files cite it. -/
def citedPath (p : Path) : Text := "PosixPath(" ++ p.toText.cited ++ ")"

/-- Copies a file, into a directory under its own name. -/
def copyFile (source target : Path) : Op Unit := do
  let intoDirectory ← Op.isDirectory target
  let place : Path :=
    if intoDirectory then ⟨target.root, target.parts ++ source.parts.getLast?.toList⟩ else target
  let cited := if intoDirectory then place.toText.cited else citedPath place
  let files ← Op.files
  let same := files.has source &&
    (files.locate source).toOption == (files.locate place).toOption
  if same then throw (.sameFile (citedPath source) cited)
  Op.writeFile place (← Op.readFile source)

/-- Copies a file and stages the copy. Copies are found by their content, so none is recorded. -/
def copy (r : WorkingCopy) (source target : Path) : Op Unit := do
  copyFile (r.root.join source) (r.root.join target)
  add r [target]

/-- The content of a file at a commit. -/
def content (r : WorkingCopy) (path : Path) (hash : Hash) : Op (Option Bytes) :=
  return (← execute r ["cat-file", "blob", hash.hex ++ ":" ++ path.toText] none .bytes).toOption

/-- A step whose failure does not keep the others from being taken. -/
def attempt (r : WorkingCopy) (arguments : List Text) : Op (List StepFailure) := do
  match ← execute r arguments with
  | .ok _ => return []
  | .error failure => return [.process failure.outcome]

/-- Discards every change and every file that is not tracked. An interrupted merge and an
interrupted rebase are ended first, if there are any. -/
def clean (r : WorkingCopy) : Op Unit := do
  discard <| execute r ["merge", "--abort"]
  discard <| execute r ["rebase", "--abort"]
  let hasHead := (← head r).isSome
  let cleaned ← attempt r ["clean", "-fdx"]
  let reset ← if hasHead then attempt r ["reset", "--hard"] else pure []
  match cleaned ++ reset with
  | [] => return ()
  | first :: others => throw (.refusal (.cleanFailed (first :: others) first))

end Git

end Dvcs
