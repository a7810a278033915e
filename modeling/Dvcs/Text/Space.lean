import Dvcs.Text

/-!
This module contains the white space and the line breaks of a text: trimming, splitting into words
and splitting into lines.
-/

namespace Dvcs

namespace Sym

/-- The characters that Unicode counts as white space, and the four information separators. -/
def isSpace : Sym → Bool
  | .char c =>
    let n := c.toNat
    (9 ≤ n && n ≤ 13) || (0x1c ≤ n && n ≤ 0x20) || n == 0x85 || n == 0xa0 || n == 0x1680 ||
      (0x2000 ≤ n && n ≤ 0x200a) || n == 0x2028 || n == 0x2029 || n == 0x202f || n == 0x205f ||
      n == 0x3000
  | .byte _ => false

/-- The four separators of the ASCII controls. -/
def isInfoSeparator : Sym → Bool
  | .char c => 0x1c ≤ c.toNat && c.toNat ≤ 0x1f
  | .byte _ => false

/-- The characters that end a line, each on its own. -/
def isLineBreak : Sym → Bool
  | .char c =>
    let n := c.toNat
    (10 ≤ n && n ≤ 13) || (0x1c ≤ n && n ≤ 0x1e) || n == 0x85 || n == 0x2028 || n == 0x2029
  | .byte _ => false

end Sym

namespace Text

/-- A text without what `p` holds of at its end. -/
def dropEndWhile (p : Sym → Bool) (t : Text) : Text := (t.reverse.dropWhile p).reverse

def trimLeft (t : Text) : Text := t.dropWhile Sym.isSpace

def trimRight (t : Text) : Text := t.dropEndWhile Sym.isSpace

def trim (t : Text) : Text := t.trimLeft.trimRight

/-- The maximal runs without white space. -/
def words : Text → List Text
  | [] => []
  | c :: t =>
    if c.isSpace then words t
    else
      match t, words t with
      | d :: _, w :: ws => if d.isSpace then [c] :: w :: ws else (c :: w) :: ws
      | _, ws => [c] :: ws

/-- The lines of a text without their breaks. A break at the very end opens no further line, and a
carriage return takes the line feed behind it along. -/
def lines : Text → List Text
  | [] => []
  | .char '\r' :: .char '\n' :: t => [] :: lines t
  | c :: t =>
    if c.isLineBreak then [] :: lines t
    else
      match lines t with
      | [] => [[c]]
      | l :: ls => (c :: l) :: ls

/-- Every carriage return, with a line feed behind it or not, becomes one line feed. -/
def unifyNewlines : Text → Text
  | [] => []
  | .char '\r' :: .char '\n' :: t => .char '\n' :: unifyNewlines t
  | c :: t => (if c = .char '\r' then .char '\n' else c) :: unifyNewlines t

end Text

end Dvcs
