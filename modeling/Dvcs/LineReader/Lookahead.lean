import Dvcs.LineReader

/-!
This module contains the reader as it takes its lines from a source, one at a time: a line that has
been looked at and not consumed waits in a slot. `LineReader` is this reader without the slot.
-/

namespace Dvcs

structure Lookahead where
  /-- The lines that have not been taken from the source. -/
  source : List Text
  /-- The line that has been looked at; none if the source had no more. -/
  slot : Option Text := none
  /-- Whether the slot is in use. -/
  filled : Bool := false
  /-- How many lines have been consumed. -/
  lineNumber : Nat := 0
deriving DecidableEq, Repr

/-- What can be asked of a reader. -/
inductive ReaderCall where
  | peek
  | next
  | atEnd
  /-- Iterates to the end. -/
  | drain
deriving DecidableEq, Repr

inductive ReaderAnswer where
  | line (line : Option Text)
  | ended (atEnd : Bool)
  | lines (ls : List Text)
deriving DecidableEq, Repr

namespace Lookahead

def ofLines (ls : List Text) : Lookahead := { source := ls }

/-- Takes a line from the source into the slot, unless the slot is in use. -/
def fill (r : Lookahead) : Lookahead :=
  if r.filled then r
  else { r with source := r.source.tail, slot := r.source.head?, filled := true }

def peek (r : Lookahead) : Option Text × Lookahead := (r.fill.slot, r.fill)

def next (r : Lookahead) : Option Text × Lookahead :=
  let (line, r) := r.peek
  let r := { r with slot := none, filled := false }
  (line, if line.isSome then { r with lineNumber := r.lineNumber + 1 } else r)

def atEnd (r : Lookahead) : Bool × Lookahead :=
  let (line, r) := r.peek
  (line.isNone, r)

/-- How many lines are to come at most. -/
def left (r : Lookahead) : Nat := r.source.length + r.slot.toList.length

theorem left_of_next {r : Lookahead} {line : Text} (h : r.next.1 = some line) :
    r.next.2.left < r.left := by
  obtain ⟨source, slot, filled, n⟩ := r
  cases filled with
  | true =>
    have hslot : slot = some line := h
    simp [next, peek, fill, left, hslot]
  | false =>
    cases source with
    | nil => cases h
    | cons first source =>
      simp [next, peek, fill, left]
      omega

/-- Consumes lines as long as there are any. -/
def drain (r : Lookahead) : List Text × Lookahead :=
  match _h : r.next.1 with
  | none => ([], r.next.2)
  | some line =>
    let (ls, r) := r.next.2.drain
    (line :: ls, r)
termination_by r.left
decreasing_by exact left_of_next _h

/-- The readers that iterating to the end goes through. -/
def drainStages (r : Lookahead) : List Lookahead :=
  match _h : r.next.1 with
  | none => [r.fill, r.next.2]
  | some _ => r.fill :: r.next.2 :: r.next.2.drainStages
termination_by r.left
decreasing_by exact left_of_next _h

def call : ReaderCall → Lookahead → ReaderAnswer × Lookahead
  | .peek, r => r.peek.map .line id
  | .next, r => r.next.map .line id
  | .atEnd, r => r.atEnd.map .ended id
  | .drain, r => r.drain.map .lines id

/-- The readers that a call goes through. -/
def stages : ReaderCall → Lookahead → List Lookahead
  | .peek, r => [r.peek.2]
  | .next, r => [r.peek.2, r.next.2]
  | .atEnd, r => [r.atEnd.2]
  | .drain, r => r.drainStages

end Lookahead

namespace LineReader

/-- The reader with its slot. -/
def lookahead (r : LineReader) : Lookahead :=
  if r.looked then ⟨r.rest.tail, r.rest.head?, true, r.lineNumber⟩
  else ⟨r.rest, none, false, r.lineNumber⟩

def call : ReaderCall → LineReader → ReaderAnswer × LineReader
  | .peek, r => r.peek.map .line id
  | .next, r => r.next.map .line id
  | .atEnd, r => r.atEnd.map .ended id
  | .drain, r => r.drain.map .lines id

end LineReader

end Dvcs
