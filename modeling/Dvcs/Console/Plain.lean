import Dvcs.Console
import Dvcs.Text.Space
import Dvcs.Text.Strict

/-!
This module contains a console of its own for hosts that bring none along. It knows no colours and
no styles: the tags of a markup have to fit together and are not shown.
-/

namespace Dvcs

namespace Console

namespace Plain

/-- Whether a tag can start with a symbol, behind the bracket. -/
def startsTag : Sym → Bool
  | .char c => c.isLower || c = '#' || c = '/' || c = '@'
  | .byte _ => false

def isNotBracket (s : Sym) : Bool := s ≠ .char '[' && s ≠ .char ']'

/-- The inner part of the tag whose opening bracket stands in front, and the text behind it. -/
def readTag : Text → Option (Text × Text)
  | [] => none
  | s :: rest =>
    if startsTag s then
      match rest.dropWhile isNotBracket with
      | .char ']' :: behind => some (s :: rest.takeWhile isNotBracket, behind)
      | _ => none
    else none

theorem length_of_readTag {t inner behind : Text} (h : readTag t = some (inner, behind)) :
    behind.length < t.length := by
  unfold readTag at h
  split at h
  · cases h
  · next s rest =>
    split at h
    · split at h
      · next hb =>
        have hle := (List.dropWhile_suffix (l := rest) isNotBracket).length_le
        rw [hb] at hle
        cases h
        exact Nat.lt_succ_of_lt hle
      · cases h
    · cases h

/-- The open styles after a tag, the innermost first; none if it closes one that is not open. -/
def applyTag? (stack : List Text) : Text → Option (List Text)
  | [.char '/'] => stack.tail?
  | .char '/' :: style => if stack.contains style then some (stack.erase style) else none
  | style => some (style :: stack)

/-- What a text with markup shows, where `stack` are the open styles. A backslash keeps the bracket
behind it from opening a tag. -/
def show? (stack : List Text) (t : Text) : Option Text :=
  match t with
  | [] => some []
  | .char '\\' :: .char '[' :: rest => (.char '[' :: ·) <$> show? stack rest
  | s :: rest =>
    match _h : if s = .char '[' then readTag rest else none with
    | some (inner, behind) => do show? (← applyTag? stack inner) behind
    | none => (s :: ·) <$> show? stack rest
termination_by t.length
decreasing_by
  · exact Nat.lt_succ_of_lt (Nat.lt_succ_self _)
  · split at _h
    · exact Nat.lt_succ_of_lt (length_of_readTag _h)
    · cases _h
  · exact Nat.lt_succ_self _

/-- A line cut wherever white space ends. -/
def spacedWords : Text → List Text
  | [] => []
  | s :: t =>
    match spacedWords t with
    | [] => [[s]]
    | w :: ws =>
      if s.isSpace && !w.head?.any Sym.isSpace then [s] :: w :: ws else (s :: w) :: ws

/-- A word cut into pieces that are as long as a line. -/
def pieces (width : Nat) (w : Text) : List Text :=
  if w.trimRight.length ≤ width then [w]
  else (List.range ((w.length + width - 1) / width)).map fun i => (w.drop (i * width)).take width

/-- Puts words on lines, the first of which holds `line` already. -/
def fill (width : Nat) (line : Text) : List Text → List Text
  | [] => [line]
  | w :: ws =>
    if (line ++ w.trimRight).length ≤ width then fill width (line ++ w) ws
    else
      let started := if line.isEmpty then [] else [line]
      let ps := pieces width w
      started ++ ps.dropLast ++ fill width (ps.getLastD []) ws

/-- The lines that a line takes. It is broken between words, and within those that are too long. -/
def wrapLine (width : Nat) (line : Text) : List Text :=
  if line.length ≤ width then [line] else (fill width [] (spacedWords line)).map (·.take width)

def ofCodec (printed : Except CodecError Bytes) : Except Fault Bytes :=
  printed.mapError fun e => ⟨e.message⟩

/-- The bytes of printed lines. -/
def ofLines (ls : List Text) : Except Fault Bytes :=
  ofCodec (Text.encodeStrict (ls.flatMap (· ++ "\n")))

/-- What a text shows, unless its tags do not fit together. -/
def shown (t : Text) : Except Fault Text :=
  match show? [] t with
  | some shown => .ok shown
  | none => .error ⟨"a tag closes what is not open"⟩

/-- Prints a text with markup on a console of a width. -/
def printText (width : Nat) (t : Text) : Except Fault Bytes := do
  ofLines ((Text.splitOn (.char '\n') (← shown t)).flatMap (wrapLine width))

/-- The widths of the columns of a table, with a blank on either side. -/
def widths (t : Table) : List Nat :=
  t.heading.zipIdx.map fun (heading, i) =>
    ((heading :: t.rows.map fun row => row[i]?.getD []).map List.length).foldl max 0 + 2

/-- A line of a frame, with its characters for the left end, the line, the dividers and the right
end. -/
def frame (left line divider right : Char) (widths : List Nat) : Text :=
  .char left :: Text.join [.char divider] (widths.map fun w => List.replicate w (.char line)) ++
    [.char right]

/-- The line of a row, with its character for the bars. -/
def rowLine (bar : Char) (widths : List Nat) (row : List Text) : Text :=
  .char bar :: Text.join [.char bar] ((widths.zip row).map fun (w, cell) =>
    .char ' ' :: cell ++ List.replicate (w - 1 - cell.length) (.char ' ')) ++ [.char bar]

/-- Prints a table whose cells have markup. -/
def printTable (t : Table) : Except Fault Bytes := do
  let rows ← t.rows.mapM (List.mapM shown)
  let ws := widths ⟨t.heading, rows⟩
  ofLines (List.flatten
    [[frame '┏' '━' '┳' '┓' ws],
      [rowLine '┃' ws t.heading],
      [frame '┡' '━' '╇' '┩' ws],
      rows.map (rowLine '│' ws),
      [frame '└' '─' '┴' '┘' ws]])

end Plain

/-- The width of a console, unless it is another one. -/
def defaultWidth : Nat := 80

/-- The console of this library. -/
def plain (width : Nat) : Console where
  text := Plain.printText width
  table := Plain.printTable

end Console

end Dvcs
