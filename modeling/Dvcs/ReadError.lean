import Dvcs.Hash
import Dvcs.Instant
import Dvcs.Path.Quoted
import Dvcs.Range
import Dvcs.Text.Cited

/-!
This module contains what can go wrong when the output of a tool is read. A fault in the form of the
output is reported with the number of its line; a value that cannot be represented is not.
-/

namespace Dvcs

/-- What is wrong with a line of a diff. The message about a missing second file header does not
tell which line stands in its place. -/
inductive DiffFault where
  | noHunkHeader
  | malformedHunkHeader (line : Text)
  | invalidRange (range : Text)
  | noHunkLine
  | excessContext
  | excessRemoval
  | excessAddition
  | unexpectedHunkLine (line : Text)
  | otherThanTargetHeader (line : Option Text)
  | lineOutsidePatch (line : Text)
  | unknownMode (mode : Text)
  | noPatchHeader
  | malformedPatchHeader (paths : Text)
  | unexpectedHeaderLine (line : Text)
  | otherThanPatchHeader (line : Text)
deriving DecidableEq, Repr

namespace DiffFault

def message : DiffFault → Text
  | noHunkHeader => "unexpected end of input, expected hunk header"
  | malformedHunkHeader line => "malformed hunk header " ++ line.cited
  | invalidRange range => "invalid range " ++ range.cited
  | noHunkLine => "unexpected end of input inside hunk"
  | excessContext => "context line exceeds hunk range"
  | excessRemoval => "removed line exceeds hunk range"
  | excessAddition => "added line exceeds hunk range"
  | unexpectedHunkLine line => "unexpected line in hunk body " ++ line.cited
  | otherThanTargetHeader _ => "expected '+++' header"
  | lineOutsidePatch line => "unexpected line outside of a patch " ++ line.cited
  | unknownMode mode => "unknown file mode " ++ mode.cited
  | noPatchHeader => "unexpected end of input, expected 'diff --git' header"
  | malformedPatchHeader paths => "malformed diff header diff --git " ++ paths.cited
  | unexpectedHeaderLine line => "unexpected line in patch header " ++ line.cited
  | otherThanPatchHeader line => "expected 'diff --git' header, got " ++ line.cited

end DiffFault

/-- The lines of a commit record. -/
inductive RecordField where
  | sentinel
  | hash
  | parents
  | authorName
  | authorEmail
  | committerName
  | committerEmail
  | timestamp
  | messageCount
  | messageLine
deriving DecidableEq, Repr

namespace RecordField

def name : RecordField → Text
  | sentinel => "record sentinel"
  | hash => "hash"
  | parents => "parents"
  | authorName => "author name"
  | authorEmail => "author email"
  | committerName => "committer name"
  | committerEmail => "committer email"
  | timestamp => "timestamp"
  | messageCount => "message line count"
  | messageLine => "message line"

end RecordField

/-- What is wrong with a line of a commit record. -/
inductive RecordFault where
  | missing (field : RecordField)
  | otherThanSentinel (line : Text)
  | invalidHash (text : Text)
  | noParents
  | invalidNumber (field : RecordField) (text : Text)
  | negativeNumber (field : RecordField) (value : Int)
  | otherThanMarker (parent : Hash) (line : Option Text)
deriving DecidableEq

namespace RecordFault

def message : RecordFault → Text
  | missing field => "unexpected end of input, expected " ++ field.name
  | otherThanSentinel line => "expected record sentinel, got " ++ line.cited
  | invalidHash text => "invalid hash " ++ text.cited
  | noParents => "commit without parents"
  | invalidNumber field text => "invalid " ++ field.name ++ " " ++ text.cited
  | negativeNumber field value => "negative " ++ field.name ++ " " ++ Text.ofInt value
  | otherThanMarker parent line =>
    "expected diff marker for parent " ++ parent.abbreviate ++ ", got " ++ Text.citedOrNone line

end RecordFault

/-- Why the output of a tool could not be read. -/
inductive ReadError where
  | diff (line : Nat) (fault : DiffFault)
  | record (line : Nat) (fault : RecordFault)
  | numeral (error : NumeralError)
  | quote (error : QuoteError)
  | time (error : TimeError)
deriving DecidableEq

/-- A message with the line it is about, if that is known. -/
def located (line : Option Int) (message : Text) : Text :=
  match line with
  | some line => "line " ++ Text.ofInt line ++ ": " ++ message
  | none => message

namespace NumeralError

def message : NumeralError → Text
  | malformed base text =>
    "invalid literal for int() with base " ++ Text.ofNat base ++ ": " ++ text.cited
  | tooManyDigits count =>
    "Exceeds the limit (4300 digits) for integer string conversion: value has " ++
      Text.ofNat count ++
      " digits; use sys.set_int_max_str_digits() to increase the limit"

end NumeralError

namespace QuoteError

def message : QuoteError → Text
  | octal error => error.message
  | tooLarge => "byte must be in range(0, 256)"
  | strayByte b =>
    "'utf-8' codec can't encode character " ++ Text.cited [.byte b] ++
      " in position 0: surrogates not allowed"

end QuoteError

namespace TimeError

def message : TimeError → Text
  | yearOutOfRange year => "year " ++ Text.ofInt year ++ " is out of range"
  | yearTooLarge => "[Errno 75] Value too large for defined data type"
  | secondsTooLarge => "timestamp out of range for platform time_t"
  | leavesCalendar => "date value out of range"

end TimeError

namespace RangeError

def message : RangeError → Text
  | malformed text => "Invalid range: " ++ text.cited
  | numeral error => error.message

end RangeError

namespace ReadError

/-- The line that a fault in the form of the output is reported at. -/
def line? : ReadError → Option Nat
  | diff line _ => some line
  | record line _ => some line
  | _ => none

def message : ReadError → Text
  | diff line fault => located (some line) fault.message
  | record line fault => located (some line) fault.message
  | numeral error => error.message
  | quote error => error.message
  | time error => error.message

end ReadError

end Dvcs
