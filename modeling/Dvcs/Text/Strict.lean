import Dvcs.Text.Cited
import Dvcs.Text.Utf8

/-!
This module contains the strict way between texts and bytes, where stray bytes are errors.
-/

namespace Dvcs

/-- Why bytes are no text, or a text has no bytes in UTF-8 alone. -/
inductive CodecError where
  /-- The bytes from `start` on, `length` of them, begin no character. -/
  | invalidStart (byte : UInt8) (start : Nat)
  | invalidContinuation (byte : UInt8) (start length : Nat)
  | unexpectedEnd (byte : UInt8) (start length : Nat)
  /-- The symbols from `start` on, `length` of them, are stray bytes. -/
  | strayBytes (byte : UInt8) (start length : Nat)
deriving DecidableEq, Repr

namespace CodecError

/-- The place of a fault: one position, or the first and the last. -/
def place (one : Text) (several : Text) (start length : Nat) : Text :=
  if length ≤ 1 then one ++ " in position " ++ Text.ofNat start
  else several ++ " in position " ++ Text.ofNat start ++ "-" ++ Text.ofNat (start + length - 1)

def undecodable (byte : UInt8) (start length : Nat) (reason : Text) : Text :=
  "'utf-8' codec can't decode " ++
    place ("byte 0x" ++ Text.hexPadded 2 byte.toNat) "bytes" start length ++ ": " ++ reason

def message : CodecError → Text
  | invalidStart byte start => undecodable byte start 1 "invalid start byte"
  | invalidContinuation byte start length =>
    undecodable byte start length "invalid continuation byte"
  | unexpectedEnd byte start length => undecodable byte start length "unexpected end of data"
  | strayBytes byte start length =>
    "'utf-8' codec can't encode " ++
      place ("character " ++ Text.cited [.byte byte]) "characters" start length ++
      ": surrogates not allowed"

end CodecError

namespace Text

/-- How many bytes a character takes that starts with a byte; none starts with the other bytes. -/
def announcedLength (b : UInt8) : Option Nat :=
  if b < 0x80 then some 1
  else if b < 0xc2 then none
  else if b < 0xe0 then some 2
  else if b < 0xf0 then some 3
  else if b < 0xf5 then some 4
  else none

/-- What is wrong at the front of some bytes that do not begin with a character. -/
def faultAt (start : Nat) (b : UInt8) (rest : Bytes) : CodecError :=
  let length := brokenLength (b :: rest)
  if (announcedLength b).isNone then .invalidStart b start
  else if length = rest.length + 1 then .unexpectedEnd b start length
  else .invalidContinuation b start length

/-- Reads UTF-8, `start` being the position of the first byte. -/
def decodeStrictFrom (start : Nat) (bs : Bytes) : Except CodecError Text :=
  match bs with
  | [] => .ok []
  | b :: bs =>
    match _h : firstChar? (b :: bs) with
    | some (c, rest) =>
      (.char c :: ·) <$> decodeStrictFrom (start + (bs.length + 1 - rest.length)) rest
    | none => .error (faultAt start b bs)
termination_by bs.length
decreasing_by exact length_of_firstChar? _h

def decodeStrict (bs : Bytes) : Except CodecError Text := decodeStrictFrom 0 bs

/-- The stray bytes at the front of a text. -/
def strayRun : Text → Nat
  | .byte _ :: t => strayRun t + 1
  | _ => 0

/-- Writes UTF-8, `start` being the position of the first symbol. -/
def encodeStrictFrom (start : Nat) : Text → Except CodecError Bytes
  | [] => .ok []
  | .char c :: t => (String.utf8EncodeChar c ++ ·) <$> encodeStrictFrom (start + 1) t
  | .byte b :: t => .error (.strayBytes b start (strayRun t + 1))

def encodeStrict (t : Text) : Except CodecError Bytes := encodeStrictFrom 0 t

end Text

end Dvcs
