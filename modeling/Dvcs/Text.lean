/-!
This module contains the texts the library works on. A text comes from bytes that are UTF-8 for
the most part: where they are not, the text keeps the stray byte itself, so that no byte is lost
between reading and writing.
-/

namespace Dvcs

abbrev Bytes := List UInt8

/-- One position of a text. -/
inductive Sym where
  /-- A character. -/
  | char (c : Char)
  /-- A byte that belongs to no character. -/
  | byte (b : UInt8)
deriving DecidableEq, Repr, Inhabited

abbrev Text := List Sym

instance : Coe Char Sym := ⟨.char⟩

namespace Sym

def isAscii : Sym → Bool
  | .char c => c.toNat < 128
  | .byte _ => false

end Sym

namespace Text

def ofString (s : String) : Text := s.toList.map .char

instance : Coe String Text := ⟨ofString⟩

/-- The decimal digits of a number. -/
def ofNat (n : Nat) : Text := (Nat.toDigits 10 n).map .char

def ofInt : Int → Text
  | .ofNat n => ofNat n
  | .negSucc n => .char '-' :: ofNat (n + 1)

/-- A number with zeros in front, at least `width` digits long. -/
def ofNatPadded (width n : Nat) : Text :=
  let digits := ofNat n
  List.replicate (width - digits.length) (.char '0') ++ digits

/-- A text with spaces behind, at least `width` symbols long. -/
def padRight (width : Nat) (t : Text) : Text :=
  t ++ List.replicate (width - t.length) (.char ' ')

/-- What follows `p` in a text that starts with it. -/
def after? : (p t : Text) → Option Text
  | [], t => some t
  | _ :: _, [] => none
  | a :: p, b :: t => if a = b then after? p t else none

def startsWith (t p : Text) : Bool := (after? p t).isSome

/-- What stands before `s` in a text that ends with it. -/
def before? (s t : Text) : Option Text := (after? s.reverse t.reverse).map List.reverse

def endsWith (t s : Text) : Bool := (before? s t).isSome

/-- A text without `p` in front, if it was there. -/
def dropStart (p t : Text) : Text := (after? p t).getD t

/-- The two sides of the first place where `sep` stands. -/
def cut? (sep : Text) : Text → Option (Text × Text)
  | [] => if sep = [] then some ([], []) else none
  | c :: t =>
    match after? sep (c :: t) with
    | some rest => some ([], rest)
    | none => (cut? sep t).map fun (before, rest) => (c :: before, rest)

def includes (t sep : Text) : Bool := (cut? sep t).isSome

/-- The pieces between the places where `s` stands; at least one, possibly empty. -/
def splitOn (s : Sym) : Text → List Text
  | [] => [[]]
  | c :: t =>
    if c = s then [] :: splitOn s t
    else
      match splitOn s t with
      | [] => [[c]]
      | w :: ws => (c :: w) :: ws

def join (sep : Text) (ts : List Text) : Text := sep.intercalate ts

@[simp]
theorem after?_nil (t : Text) : after? [] t = some t := by
  simp [after?]

@[simp]
theorem after?_append (p t : Text) : after? p (p ++ t) = some t := by
  induction p with
  | nil => simp
  | cons a p ih => simp [after?, ih]

theorem eq_append_of_after? {p t rest : Text} (h : after? p t = some rest) : t = p ++ rest := by
  fun_induction after? p t with
  | case1 t => simpa using h
  | case2 => simp at h
  | case3 p a t ih => simp [ih h]
  | case4 => simp at h

theorem after?_eq_some_iff {p t rest : Text} : after? p t = some rest ↔ t = p ++ rest :=
  ⟨eq_append_of_after?, fun h => by simp [h]⟩

theorem splitOn_ne_nil (s : Sym) (t : Text) : splitOn s t ≠ [] := by
  fun_cases splitOn s t <;> simp_all

end Text

end Dvcs
