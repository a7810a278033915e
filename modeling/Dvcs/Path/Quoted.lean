import Dvcs.Text.Digits
import Dvcs.Text.Utf8

/-!
This module contains the quoted form of paths in diffs: paths with special characters stand between
double quotes, with backslash escapes, and with bytes beyond ASCII as three octal digits.
-/

namespace Dvcs

/-- Why a quoted path cannot be read. -/
inductive QuoteError where
  /-- An octal escape is no number. -/
  | octal (error : NumeralError)
  /-- An octal escape is larger than a byte. -/
  | tooLarge
  /-- A stray byte follows a backslash. -/
  | strayByte (b : UInt8)
deriving DecidableEq, Repr

namespace Path

def needsQuotes (t : Text) : Bool :=
  t.any fun c => c = '"' || c = '\\' || c = '\t' || c = '\n' || !c.isAscii

/-- A byte as a backslash and three octal digits. -/
def octal (b : UInt8) : Text :=
  let digit (n : Nat) : Sym := .char (Nat.digitChar (n % 8))
  [.char '\\', digit (b.toNat / 64), digit (b.toNat / 8), digit b.toNat]

def quoteSym (c : Sym) : Text :=
  if c = '"' || c = '\\' then ['\\', c]
  else if c = '\t' then "\\t"
  else if c = '\n' then "\\n"
  else if c.isAscii then [c]
  else c.encode.flatMap octal

def quote (t : Text) : Text :=
  if needsQuotes t then "\"" ++ t.flatMap quoteSym ++ "\"" else t

/-- What a character after a backslash stands for. -/
def unescape (c : Char) : Char :=
  match c with
  | 't' => '\t'
  | 'n' => '\n'
  | 'r' => '\r'
  | 'a' => '\x07'
  | 'b' => '\x08'
  | 'f' => '\x0c'
  | 'v' => '\x0b'
  | c => c

def isOctalDigit : Sym → Bool
  | .char c => '0' ≤ c && c ≤ '7'
  | .byte _ => false

/-- The byte that the three symbols of an octal escape stand for. -/
def octalByte (t : Text) : Except QuoteError UInt8 :=
  match Text.readInteger 8 t with
  | .error e => .error (.octal e)
  | .ok n => if 255 < n then .error .tooLarge else .ok (UInt8.ofNat n.toNat)

/-- The bytes that stand between the quotes. A backslash at the very end, and an octal digit without
two more symbols behind it, stand for themselves. -/
def unquoteBytes : Text → Except QuoteError Bytes
  | [] => .ok []
  | [c] => .ok c.encode
  | c :: d :: e :: f :: t =>
    if c ≠ '\\' then (c.encode ++ ·) <$> unquoteBytes (d :: e :: f :: t)
    else if isOctalDigit d then do
      let b ← octalByte [d, e, f]
      return b :: (← unquoteBytes t)
    else
      match d with
      | .char d => ((Sym.char (unescape d)).encode ++ ·) <$> unquoteBytes (e :: f :: t)
      | .byte b => .error (.strayByte b)
  | c :: d :: t =>
    if c ≠ '\\' then (c.encode ++ ·) <$> unquoteBytes (d :: t)
    else
      match d with
      | .char d => ((Sym.char (unescape d)).encode ++ ·) <$> unquoteBytes t
      | .byte b => .error (.strayByte b)

/-- The text between double quotes, if it stands between them. -/
def unwrap? : Text → Option Text
  | .char '"' :: t =>
    match t.reverse with
    | .char '"' :: body => some body.reverse
    | _ => none
  | _ => none

/-- Undoes `quote`. A text that is not in quotes is taken as it is. -/
def unquote (t : Text) : Except QuoteError Text :=
  match unwrap? t with
  | some body => Text.decode <$> unquoteBytes body
  | none => .ok t

/-- Splits the quoted text off the front, up to the first quote that no backslash stands before;
the opening one has been read already. -/
def cutQuoted : Text → Text × Text
  | [] => ([], [])
  | [c] => ([c], [])
  | .char '\\' :: c :: t =>
    let (quoted, rest) := cutQuoted t
    (.char '\\' :: c :: quoted, rest)
  | c :: t =>
    if c = '"' then ([c], t)
    else
      let (quoted, rest) := cutQuoted t
      (c :: quoted, rest)

/-- The two halves of a text around a space in its middle that agree after two symbols. -/
def halves? (t : Text) : Option (Text × Text) :=
  let half := (t.length - 1) / 2
  let a := t.take half
  let b := t.drop (half + 1)
  if t.length % 2 = 1 && t[half]? = some (.char ' ') && a.drop 2 = b.drop 2 then some (a, b)
  else none

/-- Splits the two quoted paths of a patch header. Unquoted paths may hold spaces: both sides are
taken to name the same file if they can, else the second one starts at the first ` b/`. -/
def splitPair? (t : Text) : Option (Text × Text) :=
  match t with
  | .char '"' :: rest =>
    let (quoted, rest) := cutQuoted rest
    some (.char '"' :: quoted, rest.dropWhile (· = .char ' '))
  | _ =>
    match (if t.endsWith "\"" then Text.cut? " \"" t else none) with
    | some (a, b) => some (a, .char '"' :: b)
    | none =>
      match halves? t with
      | some pair => some pair
      | none => (Text.cut? " b/" t).map fun (a, b) => (a, "b/" ++ b)

/-- The source and target path of a patch header, if it has the form of two paths. -/
def readPair (t : Text) : Except QuoteError (Option (Text × Text)) :=
  match splitPair? t with
  | none => .ok none
  | some (a, b) => do
    let a ← unquote a
    let b ← unquote b
    return some (Text.dropStart "a/" a, Text.dropStart "b/" b)

end Path

end Dvcs
