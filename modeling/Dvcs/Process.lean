import Dvcs.Path
import Dvcs.Text.Cited
import Dvcs.Text.Utf8

/-!
This module contains what is known of an external command: how it answers when it is run, and what
is reported of it after it has ended.
-/

namespace Dvcs

/-- A failed call to the operating system. -/
structure SystemError where
  code : Nat
  path : Option Text := none
deriving DecidableEq, Repr

namespace SystemError

/-- The wording of the system for an error code. -/
def text (code : Nat) : Text :=
  match code with
  | 1 => "Operation not permitted"
  | 2 => "No such file or directory"
  | 5 => "Input/output error"
  | 7 => "Argument list too long"
  | 8 => "Exec format error"
  | 11 => "Resource temporarily unavailable"
  | 12 => "Cannot allocate memory"
  | 13 => "Permission denied"
  | 17 => "File exists"
  | 20 => "Not a directory"
  | 21 => "Is a directory"
  | 22 => "Invalid argument"
  | 26 => "Text file busy"
  | 28 => "No space left on device"
  | 36 => "File name too long"
  | 39 => "Directory not empty"
  | 40 => "Too many levels of symbolic links"
  | n => "Unknown error " ++ Text.ofNat n

def message (e : SystemError) : Text :=
  let cause := "[Errno " ++ Text.ofNat e.code ++ "] " ++ text e.code
  match e.path with
  | some path => cause ++ ": " ++ path.cited
  | none => cause

end SystemError

/-- What is reported of a command that has ended, or that could not be started. -/
structure Outcome where
  command : List Text
  status : Int
  stdout : List Text := []
  stderr : List Text := []
  exception : Option SystemError := none
deriving DecidableEq, Repr

namespace Outcome

/-- The status of a command that could not be started. -/
def notStarted : Int := -1

def succeeded (o : Outcome) : Bool := o.status == 0

def indent (line : Text) : Text := "  " ++ line

def exceptionLine (e : SystemError) : Text := "exception: " ++ e.message

/-- The lines of the report. -/
def report (o : Outcome) : List Text :=
  List.flatten [
    ["command: " ++ Text.join " " o.command, "status: " ++ Text.ofInt o.status],
    ["stdout:"],
    o.stdout.map indent,
    ["stderr:"],
    o.stderr.map indent,
    o.exception.toList.map exceptionLine]

def toText (o : Outcome) : Text := Text.join "\n" o.report

/-- The wording for a command that should have succeeded. -/
def failureMessage (o : Outcome) : Text := "Unexpected exit code\n" ++ o.toText

end Outcome

/-- What a command does to a file. -/
inductive FileEffect where
  | keep
  | write (content : Bytes)
  | remove
deriving DecidableEq, Repr

/-- How a command answers when it is run. -/
structure Response where
  stdout : Bytes := []
  stderr : Bytes := []
  status : Int := 0
  /-- Whether it has ended by the time somebody would stop it. -/
  exited : Bool := false
  /-- The status that it ends with if it is stopped. -/
  stoppedStatus : Int := -15
  /-- The error code with which starting it fails. -/
  startError : Option Nat := none
  /-- What happens to the file named by its output option. -/
  output : FileEffect := .keep
  /-- What happens to other files. -/
  touched : List (Path × FileEffect) := []
deriving DecidableEq, Repr

namespace Response

/-- The file that a command is told to write. -/
def outputFile? (command : List Text) : Option Path :=
  (command.findSome? (Text.after? "--output=")).map Path.ofText

/-- What a command does to files, in this order; nothing if it could not be started. -/
def effects (r : Response) (command : List Text) : List (Path × FileEffect) :=
  if r.startError.isSome then []
  else (outputFile? command).toList.map (·, r.output) ++ r.touched

/-- What is reported of a command that could not be started. -/
def startFailure (command : List Text) (code : Nat) : Outcome :=
  { command := command
    status := Outcome.notStarted
    exception := some { code := code, path := command.head? } }

/-- What is reported of a command whose whole output is collected. -/
def outcome (r : Response) (command : List Text) : Outcome :=
  match r.startError with
  | some code => startFailure command code
  | none =>
    { command := command
      status := r.status
      stdout := Text.outputLines r.stdout
      stderr := Text.outputLines r.stderr }

end Response

/-- Whether a command is run to its end at once, or read line by line while it runs. -/
inductive Mode where
  | capture
  | stream
deriving DecidableEq, Repr

end Dvcs
