import Dvcs.Commit
import Dvcs.Error

/-!
This module contains the ways to name commits, and the results of walking through history.
-/

namespace Dvcs

structure Branch where
  name : Text
deriving DecidableEq, Repr

structure Tag where
  name : Text
deriving DecidableEq, Repr

/-- What a commit can be looked up by. -/
inductive Reference where
  | hash (hash : Hash)
  | branch (branch : Branch)
  | tag (tag : Tag)
deriving DecidableEq

/-- What a tool can be asked to resolve. -/
inductive Revision where
  /-- An expression in the language of the tool. -/
  | expression (text : Text)
  | branch (branch : Branch)
  | tag (tag : Tag)
deriving DecidableEq, Repr

/-- What can be checked out. -/
inductive Target where
  | hash (hash : Hash)
  | branch (branch : Branch)
deriving DecidableEq

def Target.text : Target → Text
  | hash h => h.hex
  | branch b => b.name

namespace Reference

def text : Reference → Text
  | hash h => h.hex
  | branch b => b.name
  | tag t => t.name

def revision : Reference → Revision
  | hash h => .expression h.hex
  | branch b => .branch b
  | tag t => .tag t

end Reference

/-- Which commits to show. -/
structure Query where
  /-- An expression in the language of the tool; all commits if it is missing. -/
  revisions : Option Text := none
  /-- Only the newest ones, so many of them. -/
  limit : Option Int := none
  /-- The oldest first. -/
  reverse : Bool := false
deriving DecidableEq, Repr

namespace Query

/-- A limit that lets no commit through. -/
def isEmpty (q : Query) : Bool :=
  match q.limit with
  | some n => n ≤ 0
  | none => false

end Query

/-- What a walk through history has shown. -/
structure Traversal where
  commits : List Commit
  /-- Whether the consumer closed the walk before its end. -/
  closed : Bool := false
  /-- Why the walk failed behind these commits. -/
  error : Option Error := none
deriving DecidableEq

end Dvcs
