import Dvcs.Git.Command
import Dvcs.Validation

/-!
This module contains the questions about the state of a git repository.
-/

namespace Dvcs

namespace Git

def gitDirectory : Text := ".git"

def exists? (r : WorkingCopy) : Op Bool := Op.exists? (r.path [gitDirectory])

/-- The commit that is checked out; none on a branch without commits. -/
def head (r : WorkingCopy) : Op (Option Hash) := do
  ensureOpen r
  return (← state).head.bind Hash.ofText?

/-- The commit that is checked out, where there has to be one. -/
def checkedOut (r : WorkingCopy) : Op Hash := do
  ensureOpen r
  match (← state).head with
  | some hash => Op.ofExcept (Hash.ofText hash)
  | none => throw .unbornBranch

/-- The active branch, none if a commit is checked out by itself. -/
def currentBranch (r : WorkingCopy) : Op (Option Branch) := do
  ensureOpen r
  let s ← state
  return if s.detached then none else some ⟨s.branch⟩

def branches (r : WorkingCopy) : Op (List Branch) := do
  ensureOpen r
  return (← state).heads.map fun h => ⟨h.name⟩

def tags (r : WorkingCopy) : Op (List Tag) := do
  ensureOpen r
  return (← state).tags.map Tag.mk

/-- A revision without ambiguity. -/
def expression : Revision → Text
  | .expression t => t
  | .branch b => "refs/heads/" ++ b.name
  | .tag t => "refs/tags/" ++ t.name

/-- The words of the output of a command. -/
def outputWords (stdout : Bytes) : List Text := Text.words (Text.decode stdout)

/-- The commit that a revision names, if it is exactly one. -/
def resolve (r : WorkingCopy) (revision : Revision) : Op (Option Hash) := do
  let named := expression revision ++ "^\x7bcommit\x7d"
  match ← execute r ["rev-parse", "--verify", "--quiet", named] with
  | .error _ => return none
  | .ok stdout =>
    match outputWords stdout with
    | [word] => return some (← Op.ofExcept (Hash.ofText word))
    | _ => return none

/-- The only best common ancestor. The command fails where there is none. -/
def mergeBase (r : WorkingCopy) (first second : Hash) : Op Hash := do
  let found ←
    match ← execute r ["merge-base", "--all", first.hex, second.hex] with
    | .ok stdout => pure (outputWords stdout)
    | .error _ => pure []
  match found with
  | [word] => Op.ofExcept (Hash.ofText word)
  | _ => throw (.refusal (.mergeBases first second (.counted found.length)))

def isAncestor (r : WorkingCopy) (ancestor descendant : Hash) : Op Bool := do
  ensureOpen r
  record (.ancestorAsked ancestor.hex descendant.hex)
  return (← state).ancestor

/-- Whether tracked files are changed, or there are files that are not tracked if these count. -/
def isDirty (r : WorkingCopy) (untracked : Bool) : Op Bool := do
  ensureOpen r
  record (.dirtyAsked untracked)
  return (← state).dirty

def isClean (r : WorkingCopy) : Op Bool := return !(← isDirty r true)

/-- Whether the index is not locked. -/
def isHealthy (r : WorkingCopy) : Op Bool := do
  ensureOpen r
  return !(← Op.exists? (r.path [gitDirectory, "index.lock"]))

def isEmpty (r : WorkingCopy) : Op Bool := do
  if (← head r).isSome then return false
  if !(← branches r).isEmpty then return false
  return (← tags r).isEmpty

/-- The section and the option of a dotted key. The parts in the middle name a subsection. -/
def configLocation (key : Text) : Except Error (Text × Text) :=
  match key.splitOn (.char '.') with
  | [sect, option] => .ok (sect, option)
  | sect :: name :: rest =>
    let names := name :: rest
    .ok (sect ++ " \"" ++ Text.join "." names.dropLast ++ "\"", names.getLastD [])
  | _ => .error (.badKey key)

/-- The values of a dotted key. -/
def config (r : WorkingCopy) (key : Text) : Op (List Text) := do
  let (sect, option) ← Op.ofExcept (configLocation key)
  ensureOpen r
  record (.valuesAsked sect option)
  return (((← state).config.values? sect option).getD []).map ConfigValue.toText

/-- The last value of a dotted key. -/
def configLast (r : WorkingCopy) (key : Text) : Op (Option Text) :=
  return (← config r key).getLast?

def username (r : WorkingCopy) : Op (Option Text) := configLast r "user.name"

def isValidRange (r : WorkingCopy) (expression : Text) : Op Bool :=
  return (← execute r ["rev-parse", expression]).toBool

/-- The branch that a local branch tracks. -/
def trackedBranch (r : WorkingCopy) (branch : Branch) : Op (Option Text) := do
  ensureOpen r
  return ((← state).heads.find? (·.name = branch.name)).bind Head.tracked

end Git

end Dvcs
