import Dvcs.FileType
import Dvcs.Hash
import Dvcs.Hunk
import Dvcs.Path
import Dvcs.Path.Quoted

/-!
This module contains patches, the changes to one file, and diffs, the patches between two snapshots.
Both are written in the form with extended headers.
-/

namespace Dvcs

/-- How a file changed. -/
inductive Status where
  | added
  | deleted
  | modified
  | renamed
  | copied
deriving DecidableEq, Repr

namespace Status

def all : List Status := [added, deleted, modified, renamed, copied]

def letter : Status → Char
  | added => 'A'
  | deleted => 'D'
  | modified => 'M'
  | renamed => 'R'
  | copied => 'C'

def ofText? (t : Text) : Option Status := all.find? fun s => t = [.char s.letter]

end Status

/-- What is known of a file in one of the two snapshots; it has no path where it does not exist. -/
structure PatchSide where
  path : Option Path := none
  type : Option FileType := none
  hash : Option Hash := none
deriving DecidableEq

structure Patch where
  source : PatchSide
  target : PatchSide
  status : Status
  /-- How similar the two sides of a rename or copy are, in percent. -/
  score : Option Int := none
  hunks : List Hunk := []
  binary : Bool := false
deriving DecidableEq

namespace Patch

/-- The path in the target, or that in the source where the target has none. -/
def path (p : Patch) : Option Path := p.target.path <|> p.source.path

def counts (p : Patch) : LineCounts := .sum (p.hunks.map Hunk.counts)

/-- The text of a path that may be missing. -/
def pathText : Option Path → Text
  | some p => p.toText
  | none => "None"

/-- The source path as headers show it. -/
def sourceLabel (p : Patch) : Text :=
  Path.quote ("a/" ++ pathText (p.source.path <|> p.target.path))

/-- The target path as headers show it. -/
def targetLabel (p : Patch) : Text :=
  Path.quote ("b/" ++ pathText (p.target.path <|> p.source.path))

def patchHeader : Text := "diff --git "

def devNull : Text := "/dev/null"

def modeLines (p : Patch) : List Text :=
  match p.status with
  | .added => p.target.type.toList.map fun type => "new file mode " ++ type.mode
  | .deleted => p.source.type.toList.map fun type => "deleted file mode " ++ type.mode
  | _ =>
    match p.source.type, p.target.type with
    | some s, some t =>
      if s = t then [] else ["old mode " ++ s.mode, "new mode " ++ t.mode]
    | _, _ => []

/-- The lines that name the two paths of a move. -/
def moveLines (p : Patch) (verb : Text) : List Text :=
  (p.score.toList.map fun score => "similarity index " ++ Text.ofInt score ++ "%") ++
    [verb ++ " from " ++ Path.quote (pathText p.source.path),
      verb ++ " to " ++ Path.quote (pathText p.target.path)]

def similarityLines (p : Patch) : List Text :=
  match p.status with
  | .renamed => moveLines p "rename"
  | .copied => moveLines p "copy"
  | _ => []

def indexLines (p : Patch) : List Text :=
  match p.source.hash, p.target.hash with
  | some s, some t =>
    let mode : Text :=
      match p.source.type with
      | some type =>
        if p.target.type = some type && p.status ≠ .added && p.status ≠ .deleted then
          " " ++ type.mode
        else []
      | none => []
    ["index " ++ s.hex ++ ".." ++ t.hex ++ mode]
  | _, _ => []

/-- The content is shown as hunks; of binary content only that it differs. -/
def contentLines (p : Patch) : List Text :=
  let old := if p.source.path.isSome then p.sourceLabel else devNull
  let new := if p.target.path.isSome then p.targetLabel else devNull
  if p.binary then ["Binary files " ++ old ++ " and " ++ new ++ " differ"]
  else if p.hunks = [] then []
  else ("--- " ++ old) :: ("+++ " ++ new) :: p.hunks.flatMap Hunk.render

def render (p : Patch) : List Text :=
  (patchHeader ++ p.sourceLabel ++ " " ++ p.targetLabel) ::
    (p.modeLines ++ p.similarityLines ++ p.indexLines ++ p.contentLines)

end Patch

/-- The changes from one commit to another, or to the working copy where `target` is missing. -/
structure Diff where
  source : Hash
  target : Option Hash := none
  patches : List Patch := []
deriving DecidableEq

namespace Diff

def counts (d : Diff) : LineCounts := .sum (d.patches.map Patch.counts)

def lines (d : Diff) : List Text := d.patches.flatMap Patch.render

/-- All patches as one text, every line ended. -/
def render (d : Diff) : Text := d.lines.flatMap (· ++ "\n")

/-- What a patch file holds. -/
def toBytes (d : Diff) : Bytes := Text.encode d.render

end Diff

end Dvcs
