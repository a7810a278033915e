import Dvcs.Process
import Dvcs.Text.Digits

/-!
This module contains the failures of git commands and how they are reported.
-/

namespace Dvcs

namespace Git

/-- What a failed command ended with. -/
inductive Ending where
  | code (status : Int)
  | cause (text : Text)
  | unknown
deriving DecidableEq, Repr

/-- What is reported of a command that failed. -/
structure Report where
  ending : Ending := .code 1
  stdout : Text := []
  stderr : Text := []
deriving DecidableEq, Repr

/-- A git command that failed. -/
structure Failure extends Report where
  command : List Text
deriving DecidableEq, Repr

namespace Ending

/-- The status that is reported for an ending without one. -/
def withoutStatus : Int := -1

def status : Ending → Int
  | .code n => n
  | _ => withoutStatus

/-- The end of the first line of a report. -/
def message : Ending → Text
  | .code 0 => "!"
  | .code n => " due to: exit code(" ++ Text.ofInt n ++ ")"
  | .cause [] => "!"
  | .cause text =>
    match Text.readInteger 10 text with
    | .ok n => " due to: exit code(" ++ Text.ofInt n ++ ")"
    | .error _ => " due to: '" ++ text ++ "'"
  | .unknown => "!"

end Ending

namespace Failure

/-- The part of a report that shows one stream; nothing is shown of an empty one. -/
def streamReport (name : Text) (content : Text) : Text :=
  if content = [] then [] else "\n  " ++ name ++ ": '" ++ content ++ "'"

def message (f : Failure) : Text :=
  "Cmd('" ++ f.command.headD [] ++ "') failed" ++ f.ending.message ++ "\n  cmdline: " ++
    Text.join " " f.command ++ streamReport "stdout" f.stdout ++ streamReport "stderr" f.stderr

/-- The failure as the outcome of a command; both streams hold their reports. -/
def outcome (f : Failure) : Outcome :=
  { command := f.command
    status := f.ending.status
    stdout := (streamReport "stdout" f.stdout).trim.lines
    stderr := (streamReport "stderr" f.stderr).trim.lines }

end Failure

end Git

end Dvcs
