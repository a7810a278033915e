import Dvcs.Range

/-!
This module contains hunks: the changed regions of a file, without the lines around them.
-/

namespace Dvcs

/-- The lines that a hunk takes from, or puts into, one version of a file. -/
structure HunkSide where
  start : Nat
  lines : List Text
  /-- Whether the last of the lines lacks its line feed. -/
  noNewline : Bool := false
deriving DecidableEq, Repr

namespace HunkSide

def range (s : HunkSide) : Range := ⟨s.start, s.lines.length⟩

end HunkSide

structure Hunk where
  source : HunkSide
  target : HunkSide
deriving DecidableEq, Repr

/-- How many lines a change adds, removes and modifies. -/
structure LineCounts where
  added : Nat
  removed : Nat
  modified : Nat
deriving DecidableEq, Repr

namespace LineCounts

def sum (cs : List LineCounts) : LineCounts :=
  cs.foldr (fun c s => ⟨c.added + s.added, c.removed + s.removed, c.modified + s.modified⟩)
    ⟨0, 0, 0⟩

end LineCounts

namespace Hunk

/-- A removed line that is paired with an added one counts as modified. -/
def counts (h : Hunk) : LineCounts :=
  let source := h.source.lines.length
  let target := h.target.lines.length
  { added := target - source
    removed := source - target
    modified := min source target }

def newlineMarker : Text := "\\ No newline at end of file"

def header (h : Hunk) : Text :=
  "@@ -" ++ h.source.range.brief ++ " +" ++ h.target.range.brief ++ " @@"

/-- One side of the body: its lines behind a mark. -/
def renderSide (mark : Char) (s : HunkSide) : List Text :=
  s.lines.map (.char mark :: ·) ++ if s.noNewline then [newlineMarker] else []

def render (h : Hunk) : List Text :=
  h.header :: (renderSide '-' h.source ++ renderSide '+' h.target)

end Hunk

end Dvcs
