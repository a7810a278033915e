import Dvcs.Text

/-!
This module contains slash-separated paths without redundant parts.
-/

namespace Dvcs

structure Path where
  /-- The slashes in front: none, one or two. -/
  root : Text
  parts : List Text
deriving DecidableEq, Repr

namespace Path

/-- Exactly two slashes in front are kept as they are; more of them count as one. -/
def rootOf (t : Text) : Text :=
  match t.takeWhile (· = .char '/') with
  | [] => []
  | [_, _] => "//"
  | _ => "/"

/-- The parts between slashes, without empty ones and single dots. -/
def partsOf (t : Text) : List Text :=
  (t.splitOn (.char '/')).filter fun part => part ≠ [] && part ≠ "."

def ofText (t : Text) : Path := ⟨rootOf t, partsOf t⟩

def toText (p : Path) : Text :=
  match p.root ++ Text.join "/" p.parts with
  | [] => "."
  | t => t

def isAbsolute (p : Path) : Bool := p.root ≠ []

/-- The path `q` seen from the directory `p`. -/
def join (p q : Path) : Path := if q.isAbsolute then q else ⟨p.root, p.parts ++ q.parts⟩

/-- A path that is made by the rule for reading paths. -/
def IsNormal (p : Path) : Prop := ofText p.toText = p

end Path

end Dvcs
