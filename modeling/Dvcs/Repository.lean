import Dvcs.Process
import Dvcs.Reference
import Dvcs.World

/-!
This module contains the interface that all repositories share, whatever tool is behind them. It is
a record of operations in some monad, so that programs over it can be run against any of them.
-/

namespace Dvcs

/-- The version control systems that repositories can be driven by. -/
inductive Backend where
  | git
  | mercurial
deriving DecidableEq, Repr

namespace Backend

def all : List Backend := [git, mercurial]

def value : Backend → Text
  | git => "git"
  | mercurial => "mercurial"

def displayName : Backend → Text
  | git => "Git"
  | mercurial => "Mercurial"

/-- The directory that shows which backend a working copy belongs to. -/
def marker : Backend → Text
  | git => ".git"
  | mercurial => ".hg"

def ofText? (t : Text) : Option Backend := all.find? (·.value = t)

end Backend

/-- A working copy and how to work on it. -/
structure WorkingCopy where
  backend : Backend
  root : Path
  /-- The command that runs the tool. -/
  command : Text
  /-- Where temporary files go, if not to the usual place. -/
  temporary : Option Path := none
deriving DecidableEq, Repr

namespace WorkingCopy

/-- A path in the working copy. -/
def path (r : WorkingCopy) (names : List Text) : Path := r.root.join ⟨[], names⟩

/-- The working copy at a path. -/
def locate (backend : Backend) (path : Path) (command : Text) (temporary : Option Path) :
    Op WorkingCopy :=
  return ⟨backend, ← Op.absolute path, command, temporary⟩

/-- Deletes the working copy and makes an empty directory of it. -/
def wipe (r : WorkingCopy) : Op Unit := do
  if ← Op.exists? r.root then Op.removeTree r.root
  Op.makeDirectory r.root

end WorkingCopy

/-- A commit to be made. Without a committer it is the author, and without a date it is now. -/
structure CommitRequest where
  message : Text
  author : Author
  authorDate : Option ClockTime := none
  committerName : Option Text := none
  committerEmail : Option Text := none
  committerDate : Option ClockTime := none
deriving Repr

/-- A change to apply: a diff, or a file that holds one. -/
inductive Change where
  | diff (diff : Diff)
  | file (path : Path)
deriving DecidableEq

/-- A text that counts only if it is not empty. -/
def nonEmpty (t : Option Text) : Option Text := t.filter fun t => !t.isEmpty

/-- The operations that look at a repository. -/
structure Inspection (m : Type → Type) where
  root : m Path
  head : m (Option Hash)
  currentBranch : m (Option Branch)
  branches : m (List Branch)
  tags : m (List Tag)
  /-- The commit that a revision names, if it is exactly one. -/
  resolve : Revision → m (Option Hash)
  metadata : Query → m (List Metadata)
  /-- The changes from one commit to another, or to the working copy. -/
  diff : Hash → Option Hash → m Diff
  mergeBase : Hash → Hash → m Hash
  /-- Whether there are no changes and no unknown files. -/
  isClean : m Bool
  /-- Whether no lock has been left behind. -/
  isHealthy : m Bool
  /-- Brings the working copy back to a pristine state. -/
  clean : m Unit
  close : m Unit

/-- All operations on a repository. -/
structure Repository (m : Type → Type) extends Inspection m where
  exists? : m Bool
  init : m WorkingCopy
  /-- Deletes the working copy with its history and starts afresh. -/
  reinitialize : m WorkingCopy
  defaultBranch : Branch
  /-- The tag that the tool maintains by itself. -/
  defaultTag : Option Tag
  /-- Walks through history; with a number the consumer closes the walk after so many commits. -/
  commits : Query → Option Nat → m Traversal
  checkout : Target → (force : Bool) → m Unit
  commit : CommitRequest → m Hash
  /-- Replaces the commit that the working copy is based on. -/
  amend : CommitRequest → m Hash
  tag : Hash → (name message : Text) → Author → m Tag
  branch : Hash → (name : Text) → m Branch
  isAncestor : Hash → Hash → m Bool
  /-- Replays the commits of the current branch on top of a commit. -/
  rebase : Hash → Author → m Unit
  /-- Folds the changes up to a commit into the working copy. -/
  squash : Hash → m Unit
  merge : Hash → (strategy committerName committerEmail : Option Text) → m Unit
  apply : Change → (force : Bool) → m Unit
  /-- Fetches a single head from a remote. -/
  fetch : (uri refspec : Text) → m Hash
  push : Hash → (uri ref : Text) → (force : Bool) → m Unit
  pushAll : (uri : Text) → m Unit
  pull : (remote refspec : Option Text) → m Unit
  add : List Path → m Unit
  remove : List Path → m Unit
  move : (source target : Path) → m Unit
  copy : (source target : Path) → m Unit
  /-- The content of a file at a commit, if it exists there. -/
  content : Path → Hash → m (Option Bytes)
  /-- Whether there are no commits, branches and tags. -/
  isEmpty : m Bool
  username : m (Option Text)
  config : (key : Text) → m (List Text)
  copyTo : Path → m WorkingCopy
  setPaths : (remote pull : Text) → (push : Option Text) → m Unit
  addRemote : (name path : Text) → m Unit
  pullPath : (remote : Text) → m (Option Text)
  pushPath : (remote : Text) → m (Option Text)
  isValidRange : (expression : Text) → m Bool
  trackedBranch : Branch → m (Option Text)

namespace Repository

/-- A single commit with its diffs; none if the history of the resolved commit shows none. A hash
need not exist, but a branch or tag has to. -/
def lookup (repository : Repository Op) (reference : Reference) : Op (Option Commit) := do
  match ← repository.resolve reference.revision, reference with
  | none, .hash _ => return none
  | none, _ => throw (.refusal (.unresolved reference.text))
  | some hash, _ => do
    let walk ← repository.commits { revisions := some hash.hex, limit := some 1 } (some 1)
    match walk.commits, walk.error with
    | commit :: _, _ => return some commit
    | [], some e => throw e
    | [], none => return none

end Repository

end Dvcs
