import Dvcs.Mercurial.Command
import Dvcs.Mercurial.Revset
import Dvcs.Validation

/-!
This module contains the questions about the state of a Mercurial repository. Bookmarks play the
role of branches.
-/

namespace Dvcs

namespace Mercurial

def hgDirectory : Text := ".hg"

def exists? (r : WorkingCopy) : Op Bool := Op.isDirectory (r.path [hgDirectory])

/-- The commit that a revision names, if it is exactly one. -/
def resolve (r : WorkingCopy) (revision : Revision) : Op (Option Hash) := do
  let outcome ← run r ["log", "--rev=" ++ committed revision, hashTemplate]
  match outcome.succeeded, outcome.stdout with
  | true, [line] => return some (← Op.ofExcept (Hash.ofText line))
  | _, _ => return none

/-- The commit that the working directory is based on; none before the first commit. -/
def head (r : WorkingCopy) : Op (Option Hash) :=
  return (← resolve r (.expression ".")).filter (· ≠ .null)

/-- The active bookmark; empty if none is active. -/
def activeBookmark (r : WorkingCopy) : Op Text := do
  let outcome ← check r ["log", "--rev=.", "--template=\x7bactivebookmark\x7d"]
  return Text.trim outcome.stdout.flatten

/-- The active bookmark, or the named branch if none is active. -/
def currentBranch (r : WorkingCopy) : Op (Option Branch) := do
  let bookmark ← activeBookmark r
  if bookmark ≠ [] then return some ⟨bookmark⟩
  match (← check r ["branch"]).stdout with
  | [name] => return some ⟨name⟩
  | _ => return none

/-- The named branches, and the bookmarks behind them. -/
def branches (r : WorkingCopy) : Op (List Branch) := do
  let named := (← check r ["branches", "--template=\x7bbranch\x7d\\n"]).stdout
  let bookmarks := (← check r ["bookmarks", "--template=\x7bbookmark\x7d\\n"]).stdout
  return ((named ++ bookmarks).eraseDups.filter (· ≠ [])).map Branch.mk

/-- The tag that a line of the listing starts with. -/
def tagOfLine? (line : Text) : Option Tag := line.words.head?.map Tag.mk

def tags (r : WorkingCopy) : Op (List Tag) :=
  return (← check r ["tags"]).stdout.filterMap tagOfLine?

def mergeBase (r : WorkingCopy) (first second : Hash) : Op Hash := do
  let outcome ← check r ["log", "--rev=" ++ ancestorOf first second, hashTemplate]
  match outcome.stdout with
  | [line] =>
    if line ≠ Hash.null.hex then return ← Op.ofExcept (Hash.ofText line)
  | _ => pure ()
  throw (.refusal (.mergeBases first second (.listed outcome)))

def isAncestor (r : WorkingCopy) (ancestor descendant : Hash) : Op Bool := do
  let outcome ← check r ["log", "--rev=" ++ ifAncestorOf ancestor descendant, hashTemplate]
  return outcome.stdout.length == 1

/-- Whether there are no changed, missing or unknown files. -/
def isClean (r : WorkingCopy) : Op Bool := return (← check r ["status"]).stdout.isEmpty

/-- Whether neither the working directory nor the store is locked. -/
def isHealthy (r : WorkingCopy) : Op Bool :=
  return !(← Op.exists? (r.path [hgDirectory, "wlock"])) &&
    !(← Op.exists? (r.path [hgDirectory, "store", "lock"]))

/-- Whether there are no revisions, bookmarks and tags but the one that is always there. -/
def isEmpty (r : WorkingCopy) : Op Bool := do
  if !(← branches r).isEmpty then return false
  if 1 < (← tags r).length then return false
  return ((← resolve r (.expression "tip")).filter (· ≠ .null)).isNone

def isValidRange (r : WorkingCopy) (expression : Text) : Op Bool :=
  return (← run r ["log", "--template= ", "--rev=" ++ expression]).succeeded

def recordServer (request : ServerRequest) : Op Unit := Op.record (.server request)

/-- The entries of a section, from a server that is opened for this question only. -/
def configSection (r : WorkingCopy) (name : Text) : Op ConfigSection := do
  recordServer (.opened r.root)
  match (← get).mercurialConfig with
  | none => throw (.refusal (.notMercurial r.root.toText))
  | some config =>
    match Text.encodeStrict name with
    | .error e => do
      recordServer .closed
      throw (.codec e)
    | .ok name => do
      recordServer (.sectionAsked name)
      recordServer .closed
      return (config.lookup name).getD []

/-- The value of an entry if it has the name. -/
def valueOf (name : Text) (entry : Bytes × Bytes) : Except CodecError (Option Text) := do
  if (← Text.decodeStrict entry.1) ≠ name then return none
  return some (← Text.decodeStrict entry.2)

/-- The values of a key of the form `section.name`. -/
def config (r : WorkingCopy) (key : Text) : Op (List Text) := do
  let (sect, name) := (Text.cut? "." key).getD (key, [])
  let entries ← configSection r sect
  let values ← Op.ofExcept ((entries.mapM (valueOf name)).mapError .codec)
  return values.filterMap id

/-- The value of a key that is set exactly once. -/
def configOnce (r : WorkingCopy) (key : Text) : Op (Option Text) := do
  match ← config r key with
  | [value] => return some value
  | _ => return none

def username (r : WorkingCopy) : Op (Option Text) := configOnce r "ui.username"

end Mercurial

end Dvcs
