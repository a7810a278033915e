import Dvcs.Commit.Record
import Dvcs.Patch.Extended

/-!
This module contains the reading of commit streams. In a stream every record is followed, for each
parent, by a marker line and the diff against that parent.
-/

namespace Dvcs

namespace Commit

/-- The line before the diff against a parent. -/
def marker (parent : Hash) : Text := Metadata.sentinel ++ "diff " ++ parent.hex

/-- Whether a line starts a record or is a marker; such a line ends a diff. -/
def atRecord (line : Text) : Bool := line.startsWith Metadata.sentinel

/-- Reads the diffs of a commit against its parents. -/
def readDiffs (hash : Hash) : List Hash → Reading (List Diff)
  | [] => return []
  | parent :: parents => do
    let line ← Reading.next
    Metadata.ensure (line = some (marker parent)) (.otherThanMarker parent line)
    let patches ← Patch.readExtended atRecord
    return ⟨parent, some hash, patches⟩ :: (← readDiffs hash parents)

/-- Reads one record with its diffs. -/
def read : Reading Commit := do
  let metadata ← Metadata.read
  let diffs ← readDiffs metadata.hash metadata.parents
  return ⟨metadata, diffs⟩

/-- The lines of a commit in a stream. -/
def encode (c : Commit) : List Text :=
  c.metadata.encode ++ c.parentDiffs.flatMap fun d => marker d.source :: d.lines

section Consumption

open Reading

theorem readExtended_advances (stop : Text → Bool) : Advances (Patch.readExtended stop) := by
  intro r ps r' h
  fun_induction Patch.readExtended stop r generalizing ps r' with
  | case1 => cases h; simp
  | case2 => cases h; simp
  | case3 => cases h
  | case4 => cases h
  | case5 r line rest hr hs hl p r1 hp ps r2 hps ih =>
    have h1 := Patch.length_rest_of_readOne hp
    have h2 := ih _ _ hps
    cases h
    omega
  | case6 => cases h

theorem readDiffs_advances (hash : Hash) (parents : List Hash) :
    Advances (readDiffs hash parents) := by
  induction parents with
  | nil => exact advances_pure _
  | cons parent parents ih =>
    exact advances_next.bind fun _ => (Metadata.ensure_advances _ _).bind fun _ =>
      (readExtended_advances _).bind fun _ => ih.bind fun _ => advances_pure _

theorem read_consumes : Consumes read :=
  Metadata.read_consumes.bind fun _ => (readDiffs_advances _ _).bind fun _ => advances_pure _

end Consumption

/-- Reads a stream to its end. -/
def readAll (r : LineReader) : Items Commit := read.many read_consumes r

end Commit

namespace Metadata

/-- Reads records without diffs to the end of the input. -/
def readAll (r : LineReader) : Items Metadata := read.many read_consumes r

end Metadata

end Dvcs
