import Dvcs.Text.Digits

/-!
This module contains the line ranges of hunk headers.
-/

namespace Dvcs

/-- The lines from `start` on, `count` of them. -/
structure Range where
  start : Nat
  count : Nat
deriving DecidableEq, Repr

/-- Why a text is no range. -/
inductive RangeError where
  | malformed (text : Text)
  | numeral (error : NumeralError)
deriving DecidableEq, Repr

namespace Range

/-- The line behind the last one. -/
def stop (r : Range) : Nat := r.start + r.count

def toText (r : Range) : Text := Text.ofNat r.start ++ "," ++ Text.ofNat r.count

/-- The form in hunk headers, where a count of one is left out. -/
def brief (r : Range) : Text := if r.count = 1 then Text.ofNat r.start else r.toText

/-- The largest number of 64 bits, which some tools print for the count minus one. -/
def minusOne : Text := "18446744073709551615"

/-- A text without the line feed at its end. -/
def dropNewline (t : Text) : Text := (Text.before? "\n" t).getD t

/-- The number that one part of a range spells; a line feed may end it. -/
def number (whole part : Text) : Except RangeError Nat :=
  match Text.natural? (dropNewline part) with
  | none => .error (.malformed whole)
  | some (.error e) => .error (.numeral e)
  | some (.ok n) => .ok n

/-- Reads `start,count`. A count that is left out is one, and `minusOne` counts no line. -/
def ofText (t : Text) : Except RangeError Range :=
  match Text.cut? "," t with
  | none => do
    let start ← number t t
    return ⟨start, 1⟩
  | some (first, second) => do
    let start ← number t first
    if second = minusOne then return ⟨start, 0⟩
    let count ← number t second
    return ⟨start, count⟩

end Range

end Dvcs
