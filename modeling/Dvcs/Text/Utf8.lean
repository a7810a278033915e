import Dvcs.Text

/-!
This module contains the way between texts and bytes. `Text.decode` reads UTF-8 and keeps every
byte that belongs to no character as a symbol of its own; `Text.encode` writes the bytes back.
-/

namespace Dvcs

namespace Text

/-- The character that the first bytes spell in UTF-8, and the bytes behind it. -/
def firstChar? (bs : Bytes) : Option (Char × Bytes) :=
  ((bs.take 4).toByteArray.utf8DecodeChar? 0).map fun c => (c, bs.drop c.utf8Size)

theorem length_of_firstChar? {bs rest : Bytes} {c : Char} (h : firstChar? bs = some (c, rest)) :
    rest.length < bs.length := by
  obtain ⟨d, hd, heq⟩ := Option.map_eq_some_iff.1 h
  cases bs with
  | nil =>
    have : (List.toByteArray []).utf8DecodeChar? 0 = none := by decide
    simp_all
  | cons b bs =>
    have := d.utf8Size_pos
    simp only [Prod.mk.injEq] at heq
    simp [← heq.2]
    omega

def decode (bs : Bytes) : Text :=
  match bs with
  | [] => []
  | b :: bs =>
    match _h : firstChar? (b :: bs) with
    | some (c, rest) => .char c :: decode rest
    | none => .byte b :: decode bs
termination_by bs.length
decreasing_by
  · exact length_of_firstChar? _h
  · simp

end Text

def Sym.encode : Sym → Bytes
  | .char c => String.utf8EncodeChar c
  | .byte b => [b]

namespace Text

def encode (t : Text) : Bytes := t.flatMap Sym.encode

/-- How many bytes the longest start of some character takes at the front, at least one. -/
def brokenLength : Bytes → Nat
  | [] => 1
  | b :: rest =>
    let tail (lo hi : UInt8) (bs : Bytes) : Bool :=
      match bs with
      | c :: _ => lo ≤ c && c ≤ hi
      | [] => false
    let second : Bool :=
      if b = 0xe0 then tail 0xa0 0xbf rest
      else if b = 0xed then tail 0x80 0x9f rest
      else if b = 0xf0 then tail 0x90 0xbf rest
      else if b = 0xf4 then tail 0x80 0x8f rest
      else if 0xe1 ≤ b && b ≤ 0xf3 then tail 0x80 0xbf rest
      else false
    if second then
      if 0xf0 ≤ b && tail 0x80 0xbf (rest.drop 1) then 3 else 2
    else 1

/-- Reads UTF-8 with one replacement character for each broken start of a character. -/
def decodeReplacing (bs : Bytes) : Text :=
  match bs with
  | [] => []
  | b :: bs =>
    match _h : firstChar? (b :: bs) with
    | some (c, rest) => .char c :: decodeReplacing rest
    | none => .char '\ufffd' :: decodeReplacing (bs.drop (brokenLength (b :: bs) - 1))
termination_by bs.length
decreasing_by
  · exact length_of_firstChar? _h
  · rw [List.length_drop, List.length_cons]
    omega

/-- The lines of some output: cut at line feeds alone, the last one possibly without. -/
def outputLines (bs : Bytes) : List Text :=
  let ls := splitOn (.char '\n') (decode bs)
  if ls.getLast? = some [] then ls.dropLast else ls

/-- A text that came from bytes. -/
def FromBytes (t : Text) : Prop := decode (encode t) = t

end Text

end Dvcs
