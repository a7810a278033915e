import Dvcs.Hunk
import Dvcs.LineReader

/-!
This module contains the reading of hunk blocks. A block is a header with the ranges of both sides
and as many lines as these count. The lines that both sides share are not kept: a block falls into
one hunk for each run of changes, with the ranges that it would have had with no shared lines around
it.
-/

namespace Dvcs

namespace Hunk

/-- The digits in front of a text. -/
def takeDigits (t : Text) : Text × Text := t.span Sym.isDigit

/-- Splits the range in front of a text off: digits, and behind a comma digits again. -/
def takeRange? (t : Text) : Option (Text × Text) :=
  match takeDigits t with
  | ([], _) => none
  | (start, rest) =>
    match rest with
    | .char ',' :: rest' =>
      match takeDigits rest' with
      | ([], _) => some (start, rest)
      | (count, rest') => some (start ++ "," ++ count, rest')
    | _ => some (start, rest)

/-- The two ranges of a block header. Any text may stand behind its end mark. -/
def headerRanges? (line : Text) : Option (Text × Text) := do
  let t ← Text.after? "@@ -" line
  let (source, t) ← takeRange? t
  let t ← Text.after? " +" t
  let (target, t) ← takeRange? t
  let _ ← Text.after? " @@" t
  return (source, target)

/-- Changes without a shared line between them. The lines are kept with the last one first. -/
structure Run where
  sourceStart : Nat
  targetStart : Nat
  source : List Text := []
  target : List Text := []
  sourceNoNewline : Bool := false
  targetNoNewline : Bool := false
deriving DecidableEq, Repr

namespace Run

/-- An empty side stands at the line before the change. -/
def side (start : Nat) (lines : List Text) (noNewline : Bool) : HunkSide :=
  { start := if lines = [] then start - 1 else start
    lines := lines.reverse
    noNewline := noNewline }

def toHunk (r : Run) : Hunk :=
  { source := side r.sourceStart r.source r.sourceNoNewline
    target := side r.targetStart r.target r.targetNoNewline }

end Run

/-- The sides that a line of a block can belong to. -/
inductive Kind where
  | context
  | removed
  | added
deriving DecidableEq, Repr

/-- How far a block has been read. -/
structure Block where
  sourceLeft : Nat
  targetLeft : Nat
  sourceLine : Nat
  targetLine : Nat
  /-- The finished hunks, the last one first. -/
  hunks : List Hunk := []
  run : Option Run := none
  last : Option Kind := none
deriving DecidableEq, Repr

namespace Block

/-- An empty range stands at the line before its place. -/
def firstLine (r : Range) : Nat := if r.count = 0 then r.start + 1 else r.start

def ofRanges (source target : Range) : Block :=
  { sourceLeft := source.count
    targetLeft := target.count
    sourceLine := firstLine source
    targetLine := firstLine target }

def isComplete (b : Block) : Bool := b.sourceLeft == 0 && b.targetLeft == 0

/-- The run that a changed line belongs to. -/
def currentRun (b : Block) : Run := b.run.getD ⟨b.sourceLine, b.targetLine, [], [], false, false⟩

def closeRun (b : Block) : Block :=
  match b.run with
  | some run => { b with hunks := run.toHunk :: b.hunks, run := none }
  | none => b

/-- The line before lacks its line feed. -/
def markNoNewline (b : Block) : Block :=
  match b.run, b.last with
  | some run, some .removed => { b with run := some { run with sourceNoNewline := true } }
  | some run, some .added => { b with run := some { run with targetNoNewline := true } }
  | _, _ => b

/-- Takes one line of the body. -/
def step (b : Block) (line : Text) : Except DiffFault Block :=
  match line with
  | .char ' ' :: _ =>
    if b.sourceLeft = 0 || b.targetLeft = 0 then .error .excessContext
    else
      let b := b.closeRun
      .ok { b with
        sourceLine := b.sourceLine + 1
        targetLine := b.targetLine + 1
        sourceLeft := b.sourceLeft - 1
        targetLeft := b.targetLeft - 1
        last := some .context }
  | .char '-' :: text =>
    if b.sourceLeft = 0 then .error .excessRemoval
    else
      let run := b.currentRun
      .ok { b with
        run := some { run with source := text :: run.source }
        sourceLine := b.sourceLine + 1
        sourceLeft := b.sourceLeft - 1
        last := some .removed }
  | .char '+' :: text =>
    if b.targetLeft = 0 then .error .excessAddition
    else
      let run := b.currentRun
      .ok { b with
        run := some { run with target := text :: run.target }
        targetLine := b.targetLine + 1
        targetLeft := b.targetLeft - 1
        last := some .added }
  | .char '\\' :: _ => .ok b.markNoNewline
  | _ => .error (.unexpectedHunkLine line)

/-- Takes lines until both counts are met, `n` being the number of lines consumed so far. -/
def readBody (b : Block) (n : Nat) : List Text → EStateM.Result ReadError LineReader Block
  | [] =>
    if b.isComplete then .ok b ⟨[], n, false⟩
    else .error (.diff (n + 1) .noHunkLine) ⟨[], n, false⟩
  | line :: rest =>
    if b.isComplete then .ok b ⟨line :: rest, n, false⟩
    else
      match b.step line with
      | .error fault => .error (.diff (n + 1) fault) ⟨rest, n + 1, false⟩
      | .ok b => readBody b (n + 1) rest

/-- The hunks of a block, with a last look for a missing line feed. -/
def finish (b : Block) (r : LineReader) : EStateM.Result ReadError LineReader (List Hunk) :=
  match r.rest with
  | (.char '\\' :: _) :: rest =>
    .ok b.markNoNewline.closeRun.hunks.reverse ⟨rest, r.lineNumber + 1, false⟩
  | _ => .ok b.closeRun.hunks.reverse { r with looked := true }

theorem length_rest_of_readBody {b b' : Block} {n : Nat} {ls : List Text} {r : LineReader}
    (h : readBody b n ls = .ok b' r) : r.rest.length ≤ ls.length := by
  induction ls generalizing b n with
  | nil =>
    simp only [readBody] at h
    split at h <;> simp_all
    simp [← h.2]
  | cons line rest ih =>
    simp only [readBody] at h
    split at h
    · simp_all
      simp [← h.2]
    · split at h
      · simp at h
      · have := ih h
        simp
        omega

theorem length_rest_of_finish {b : Block} {r r' : LineReader} {hs : List Hunk}
    (h : finish b r = .ok hs r') : r'.rest.length ≤ r.rest.length := by
  unfold finish at h
  split at h <;> simp_all
  · simp [← h.2]
  · simp [← h.2]

end Block

def range (text : Text) (line : Nat) : Except ReadError Range :=
  match Range.ofText text with
  | .ok range => .ok range
  | .error _ => .error (.diff line (.invalidRange text))

/-- Reads one block. -/
def readBlock : Reading (List Hunk) := fun r =>
  match r.rest with
  | [] => .error (.diff (r.lineNumber + 1) .noHunkHeader) { r with looked := false }
  | line :: rest =>
    let n := r.lineNumber + 1
    match headerRanges? line with
    | none => .error (.diff n (.malformedHunkHeader line)) ⟨rest, n, false⟩
    | some (source, target) =>
      match range source n, range target n with
      | .error e, _ => .error e ⟨rest, n, false⟩
      | _, .error e => .error e ⟨rest, n, false⟩
      | .ok source, .ok target =>
        match (Block.ofRanges source target).readBody n rest with
        | .error e r => .error e r
        | .ok b r => b.finish r

theorem length_rest_of_readBlock {r r' : LineReader} {hs : List Hunk}
    (h : readBlock r = .ok hs r') : r'.rest.length < r.rest.length := by
  unfold readBlock at h
  split at h
  · simp at h
  · rename_i line rest hr
    dsimp only at h
    split at h
    · simp at h
    · split at h
      · simp at h
      · simp at h
      · split at h
        · simp at h
        · rename_i hb
          have := Block.length_rest_of_readBody hb
          have := Block.length_rest_of_finish h
          simp [hr]
          omega

/-- Reads blocks as long as lines look like a block header. -/
def readBlocks (r : LineReader) : EStateM.Result ReadError LineReader (List Hunk) :=
  match r.rest with
  | [] => .ok [] { r with looked := true }
  | line :: _ =>
    if line.startsWith "@@" then
      match _h : readBlock r with
      | .error e r => .error e r
      | .ok hs r' =>
        match readBlocks r' with
        | .error e r => .error e r
        | .ok more r => .ok (hs ++ more) r
    else .ok [] { r with looked := true }
termination_by r.rest.length
decreasing_by exact length_rest_of_readBlock _h

end Hunk

end Dvcs
