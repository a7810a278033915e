import Dvcs.Author
import Dvcs.Hash
import Dvcs.Instant
import Dvcs.Patch

/-!
This module contains commits: what history records about them, and the changes they introduce.
-/

namespace Dvcs

/-- Everything about a commit except its changes. A commit without parents has the null hash as its
only one. -/
structure Metadata where
  hash : Hash
  parents : List Hash
  author : Author
  committer : Author
  timestamp : Instant
  message : List Text := []
deriving DecidableEq

namespace Metadata

def isInitial (m : Metadata) : Bool := m.parents = [.null]

def isMerge (m : Metadata) : Bool := 1 < m.parents.length

/-- The first line of the message. -/
def title (m : Metadata) : Text := m.message.headD []

/-- The form for people, on one line. -/
def toText (m : Metadata) : Text :=
  m.hash.hex ++ "  " ++ Text.padRight 12 m.author.toText ++ "  " ++ m.timestamp.display ++ "  " ++
    m.title

end Metadata

structure Commit where
  metadata : Metadata
  /-- One diff for each parent, in the order of the parents. -/
  parentDiffs : List Diff := []
deriving DecidableEq

namespace Commit

/-- The changes since the first parent. -/
def patches (c : Commit) : List Patch :=
  match c.parentDiffs with
  | [] => []
  | d :: _ => d.patches

end Commit

end Dvcs
