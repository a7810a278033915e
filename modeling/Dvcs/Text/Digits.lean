import Dvcs.Text.Space

/-!
This module contains decimal digits and the numbers that texts spell with them. Any decimal digit
that Unicode knows counts, in every script.
-/

namespace Dvcs

/-- The zeros of all scripts; each is followed by the other nine digits in order. -/
def Sym.zeros : List Nat :=
  [
    0x30, 0x660, 0x6f0, 0x7c0, 0x966, 0x9e6, 0xa66, 0xae6, 0xb66, 0xbe6, 0xc66, 0xce6, 0xd66,
    0xde6, 0xe50, 0xed0, 0xf20, 0x1040, 0x1090, 0x17e0, 0x1810, 0x1946, 0x19d0, 0x1a80, 0x1a90,
    0x1b50, 0x1bb0, 0x1c40, 0x1c50, 0xa620, 0xa8d0, 0xa900, 0xa9d0, 0xa9f0, 0xaa50, 0xabf0,
    0xff10, 0x104a0, 0x10d30, 0x11066, 0x110f0, 0x11136, 0x111d0, 0x112f0, 0x11450, 0x114d0,
    0x11650, 0x116c0, 0x11730, 0x118e0, 0x11950, 0x11c50, 0x11d50, 0x11da0, 0x16a60, 0x16ac0,
    0x16b50, 0x1d7ce, 0x1d7d8, 0x1d7e2, 0x1d7ec, 0x1d7f6, 0x1e140, 0x1e2f0, 0x1e950, 0x1fbf0
  ]

/-- The value of a decimal digit. -/
def Sym.digit? : Sym → Option Nat
  | .char c => (Sym.zeros.find? fun z => z ≤ c.toNat && c.toNat < z + 10).map (c.toNat - ·)
  | .byte _ => none

def Sym.isDigit (s : Sym) : Bool := s.digit?.isSome

/-- What can be wrong with the text of a number. -/
inductive NumeralError where
  /-- The text does not follow the grammar of the base. -/
  | malformed (base : Nat) (text : Text)
  /-- The text has more digits than `Text.digitLimit`. -/
  | tooManyDigits (count : Nat)
deriving DecidableEq, Repr

namespace Text

/-- Longer runs of digits are not read. -/
def digitLimit : Nat := 4300

/-- The number that a list of digit values spells in a base. -/
def ofDigitValues (base : Nat) (ds : List Nat) : Nat := ds.foldl (fun n d => n * base + d) 0

/-- The number that a non-empty run of digits spells. -/
def natural? (t : Text) : Option (Except NumeralError Nat) :=
  if t.isEmpty || !t.all Sym.isDigit then none
  else if digitLimit < t.length then some (.error (.tooManyDigits t.length))
  else some (.ok (ofDigitValues 10 (t.filterMap Sym.digit?)))

/-- The values of digits in a base, where one underscore may stand between two of them. -/
def digitValues? (base : Nat) : Text → Option (List Nat)
  | [] => none
  | [c] => (c.digit?.filter (· < base)).map ([·])
  | c :: .char '_' :: t => do
    let d ← c.digit?.filter (· < base)
    return d :: (← digitValues? base t)
  | c :: t => do
    let d ← c.digit?.filter (· < base)
    return d :: (← digitValues? base t)

/-- The blanks that may surround a number: white space without the information separators. -/
def isNumeralBlank (s : Sym) : Bool := s.isSpace && !s.isInfoSeparator

/-- A number without the mark of base 8, which may have an underscore behind it. -/
def dropOctalMark (t : Text) : Text :=
  match t with
  | .char '0' :: .char o :: rest =>
    if o = 'o' || o = 'O' then dropStart "_" rest else t
  | _ => t

/-- Reads an integer in base 8 or 10: blanks around it, a sign, in base 8 the mark `0o`, and single
underscores between the digits are allowed. -/
def readInteger (base : Nat) (t : Text) : Except NumeralError Int :=
  let bare : Text := dropEndWhile isNumeralBlank (t.dropWhile isNumeralBlank)
  let (negative, unsigned) : Bool × Text :=
    match bare with
    | .char '+' :: rest => (false, rest)
    | .char '-' :: rest => (true, rest)
    | _ => (false, bare)
  match digitValues? base (if base = 8 then dropOctalMark unsigned else unsigned) with
  | none => .error (.malformed base t)
  | some ds =>
    if base = 10 && digitLimit < ds.length then .error (.tooManyDigits ds.length)
    else
      let n := ofDigitValues base ds
      .ok (if negative then -(n : Int) else n)

end Text

end Dvcs
