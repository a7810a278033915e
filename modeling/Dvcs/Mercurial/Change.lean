import Dvcs.Mercurial.Inspect

/-!
This module contains the operations that change a Mercurial repository or its working directory. A
text of the caller stands behind `--`, or behind the equals sign of an option.
-/

namespace Dvcs

namespace Mercurial

/-- The form of an author that hg takes; an empty address counts as none. -/
def user (a : Author) : Text := a.toText

/-- Updates the working directory. Without force, changes to tracked files are in the way. -/
def checkout (r : WorkingCopy) (target : Target) (force : Bool) : Op Unit := do
  if !force then
    if !(← trackedModifications r).isEmpty then throw (.refusal (.dirtyCheckout target.text))
  discard <| check r ["update", if force then "--clean" else "--check", "--", target.text]

/-- Whether the committer of a request is the author. -/
def isByAuthor (c : CommitRequest) : Bool :=
  (nonEmpty c.committerName).getD c.author.name = c.author.name &&
    (match nonEmpty c.committerEmail with
    | some email => c.author.email = some email
    | none => true)

/-- Whether the dates of a request agree. -/
def isOfOneDate (c : CommitRequest) : Bool :=
  match c.committerDate, c.authorDate with
  | none, _ => true
  | some date, some other => date.agrees other
  | some _, none => false

/-- Commits every outstanding change. -/
def commit (r : WorkingCopy) (c : CommitRequest) : Op Hash := do
  if !isByAuthor c then throw (.refusal .otherCommitter)
  if !isOfOneDate c then throw (.refusal .otherDate)
  let date : List Text := c.authorDate.toList.map fun date =>
    "--date=" ++ Text.ofInt date.seconds ++ " 0"
  discard <| check r (List.flatten [
    ["commit", "--message=" ++ c.message, "--user=" ++ user c.author], date])
  match ← head r with
  | some hash => return hash
  | none => throw (.refusal .noNewCommit)

def tag (r : WorkingCopy) (hash : Hash) (name message : Text) (author : Author) : Op Tag := do
  discard <| check r ["tag", "--message=" ++ message, "--user=" ++ user author,
    "--rev=" ++ hash.hex, "--", name]
  return ⟨name⟩

/-- Makes a bookmark without activating it. -/
def branch (r : WorkingCopy) (hash : Hash) (name : Text) : Op Branch := do
  discard <| check r ["bookmark", "--rev=" ++ hash.hex, "--", name]
  return ⟨name⟩

/-- Merges a commit into the working directory. No identity is needed for that. -/
def merge (r : WorkingCopy) (hash : Hash) (strategy : Option Text) : Op Unit := do
  let tool : List Text := strategy.toList.map ("--tool=" ++ ·)
  discard <| check r ("merge" :: ("--rev=" ++ hash.hex) :: tool)

def apply (r : WorkingCopy) (change : Change) (force : Bool) : Op Unit := do
  let arguments : List Text := "import" :: "--no-commit" :: if force then ["--force"] else []
  match change with
  | .file path => discard <| check r (arguments ++ [path.toText])
  | .diff diff =>
    Op.withTempFile r.temporary ".patch" diff.toBytes fun path =>
      discard <| check r (arguments ++ [path.toText])

def add (r : WorkingCopy) (paths : List Path) : Op Unit :=
  discard <| check r ("add" :: "--" :: paths.map Path.toText)

def remove (r : WorkingCopy) (paths : List Path) : Op Unit :=
  discard <| check r ("remove" :: "--" :: paths.map Path.toText)

def move (r : WorkingCopy) (source target : Path) : Op Unit :=
  discard <| check r ["move", "--", source.toText, target.toText]

def copy (r : WorkingCopy) (source target : Path) : Op Unit :=
  discard <| check r ["copy", "--", source.toText, target.toText]

/-- The content of a file at a commit. -/
def content (r : WorkingCopy) (path : Path) (hash : Hash) : Op (Option Bytes) :=
  Op.withTempFile r.temporary ".bin" [] fun output => do
    let outcome ← run r ["cat", "--output=" ++ output.toText, "--rev=" ++ hash.hex, "--",
      path.toText]
    if outcome.succeeded then return some (← Op.readFile output) else return none

end Mercurial

end Dvcs
