import Dvcs.CommandLine.Option
import Dvcs.Text.Digits

/-!
This module contains what a command line asks for.
-/

namespace Dvcs

namespace CommandLine

/-- A question about a repository, or a change to it. -/
inductive Command where
  | log (revisions : Option Text) (limit : Option Int) (reverse : Bool)
  | diff (source : Text) (target : Option Text) (stat : Bool)
  | branches
  | tags
  | status
  | clean
  | mergeBase (first second : Text)
deriving DecidableEq, Repr

inductive Request where
  /-- A command for the repository that a path is in. -/
  | command (command : Command) (repository envFile : Option Text)
  /-- Shows the settings. -/
  | config (envFile : Option Text)
  | version
deriving DecidableEq, Repr

/-- The options that all commands for repositories have. -/
def commonOptions : List OptionName := [.repository, .envFile, .verbose]

/-- The number that an option has as its value. -/
def number? (value : Option Text) : Except UsageError (Option Int) :=
  match value with
  | none => .ok none
  | some value =>
    match Text.readInteger 10 value with
    | .ok n => .ok (some n)
    | .error _ => .error (.invalidNumber value)

/-- Operands of which the first `required` have to be there, and no more than `required +
optional`. -/
def checkOperands (required optional : Nat) (operands : List Text) : Except UsageError Unit :=
  if operands.length < required then .error .missingOperand
  else if required + optional < operands.length then
    .error (.extraOperands (operands.drop (required + optional)))
  else .ok ()

/-- A command with so many operands at least, and so many more at most. -/
def readCommand (own : List OptionName) (required optional : Nat) (arguments : List Text)
    (command : Arguments → Except UsageError Command) : Except UsageError Request := do
  let a ← Arguments.read (own ++ commonOptions) arguments
  let command ← command a
  checkOperands required optional a.operands
  return .command command (a.value? .repository) (a.value? .envFile)

/-- The commands by their names. -/
def Request.readNamed (name : Text) (arguments : List Text) : Except UsageError Request :=
  let plain (command : Command) : Except UsageError Request :=
    readCommand [] 0 0 arguments fun _ => .ok command
  if name = "log" then
    readCommand [.limit, .reverse] 0 1 arguments fun a => do
      return .log a.operands.head? (← number? (a.value? .limit)) (a.has .reverse)
  else if name = "diff" then
    readCommand [.stat] 1 1 arguments fun a =>
      match a.operands with
      | source :: rest => .ok (.diff source rest.head? (a.has .stat))
      | [] => .error .missingOperand
  else if name = "merge-base" then
    readCommand [] 2 0 arguments fun a =>
      match a.operands with
      | first :: second :: _ => .ok (.mergeBase first second)
      | _ => .error .missingOperand
  else if name = "branches" then plain .branches
  else if name = "tags" then plain .tags
  else if name = "status" then plain .status
  else if name = "clean" then plain .clean
  else if name = "config" then do
    let a ← Arguments.read [.envFile] arguments
    checkOperands 0 0 a.operands
    return .config (a.value? .envFile)
  else if name = "version" then do
    let a ← Arguments.read [] arguments
    checkOperands 0 0 a.operands
    return .version
  else .error (.unknownCommand name)

/-- Reads a whole command line. There are no options in front of the command. -/
def Request.read : List Text → Except UsageError Request
  | [] => .error .noCommand
  | name :: arguments =>
    if name = "--" then
      match arguments with
      | name :: arguments => readNamed name arguments
      | [] => .error .noCommand
    else if Arguments.isOption name then .error (.unknownOption name)
    else readNamed name arguments

end CommandLine

end Dvcs
