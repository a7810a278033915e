import Dvcs.Reference

/-!
This module contains the expressions of Mercurial's query language for revisions.
-/

namespace Dvcs

namespace Mercurial

/-- The text with another one in the place of every `c`. -/
def replaced (c : Sym) (new t : Text) : Text := t.flatMap fun d => if d = c then new else [d]

/-- A name as a string of the query language. The backslashes of the name are doubled before there
are others. -/
def symbol (name : Text) : Text :=
  "'" ++ replaced '\'' "\\'" (replaced '\\' "\\\\" name) ++ "'"

def expression : Revision → Text
  | .expression t => t
  | .branch b => symbol b.name
  | .tag t => symbol t.name

/-- The commits that a revision names; the working directory is none. -/
def committed (revision : Revision) : Text := "(" ++ expression revision ++ ") and not wdir()"

def ancestorOf (first second : Hash) : Text := "ancestor(" ++ first.hex ++ ", " ++ second.hex ++ ")"

/-- A commit if it is an ancestor of another. -/
def ifAncestorOf (ancestor descendant : Hash) : Text :=
  ancestor.hex ++ " and ancestors(" ++ descendant.hex ++ ")"

/-- What follows the base up to a commit. -/
def throughFromBase (last : Hash) : Text := ".:" ++ last.hex ++ " and not ."

/-- The ancestors of `start` that are not ancestors of `base`. -/
def onlyFrom (start : Text) (base : Hash) : Text := "only(" ++ start ++ ", " ++ base.hex ++ ")"

end Mercurial

end Dvcs
