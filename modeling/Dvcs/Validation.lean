import Dvcs.Error
import Dvcs.Patch

/-!
This module contains the values of the model that are built from parts which need not fit. The first
part that does not fit is the error.
-/

namespace Dvcs

def Hash.ofText (t : Text) : Except Error Hash :=
  match Hash.ofText? t with
  | some hash => .ok hash
  | none => .error (.invalid [.hash t])

def FileType.ofMode (mode : Text) : Except Error FileType :=
  match FileType.ofMode? mode with
  | some type => .ok type
  | none => .error (.unknown .fileType mode)

def Status.ofText (letter : Text) : Except Error Status :=
  match Status.ofText? letter with
  | some status => .ok status
  | none => .error (.unknown .status letter)

/-- Both numbers are checked before either is refused. -/
def Range.ofInts (start count : Int) : Except Error Range :=
  let negative (field : Text) (n : Int) : List Invalid := if n < 0 then [.negative field] else []
  match negative "start" start ++ negative "count" count with
  | [] => .ok ⟨start.toNat, count.toNat⟩
  | causes => .error (.invalid causes)

def HunkSide.ofRange (range : Range) (lines : List Text) (noNewline : Bool) :
    Except Error HunkSide :=
  if lines.length = range.count then .ok ⟨range.start, lines, noNewline⟩
  else .error (.invalid [.rangeMismatch range lines.length])

theorem HunkSide.range_of_ofRange {range : Range} {lines : List Text} {noNewline : Bool}
    {side : HunkSide} (h : HunkSide.ofRange range lines noNewline = .ok side) :
    side.range = range := by
  unfold HunkSide.ofRange at h
  split at h
  · cases h
    simp_all [HunkSide.range]
  · simp at h

end Dvcs
