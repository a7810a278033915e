import Dvcs.Text

/-!
This module contains the form of command lines: options, their values and operands. Options start
with dashes and may stand before and behind operands; those of one letter can be joined. Everything
behind a double dash is an operand.
-/

namespace Dvcs

namespace CommandLine

inductive OptionName where
  | limit
  | reverse
  | stat
  | repository
  | envFile
  | verbose
deriving DecidableEq, Repr

namespace OptionName

/-- The ways to write an option. -/
def spellings : OptionName → List Text
  | limit => ["--limit", "-n"]
  | reverse => ["--reverse"]
  | stat => ["--stat"]
  | repository => ["--repo", "-C"]
  | envFile => ["--env-file"]
  | verbose => ["--verbose", "-v"]

def takesValue : OptionName → Bool
  | limit | repository | envFile => true
  | reverse | stat | verbose => false

/-- The option among `known` that is written in a way. -/
def find? (known : List OptionName) (spelling : Text) : Option OptionName :=
  known.find? (·.spellings.contains spelling)

end OptionName

/-- Why a command line is not understood. -/
inductive UsageError where
  | noCommand
  | unknownCommand (name : Text)
  | unknownOption (spelling : Text)
  | missingValue (option : OptionName)
  | unexpectedValue (option : OptionName)
  | invalidNumber (value : Text)
  | missingOperand
  | extraOperands (operands : List Text)
deriving DecidableEq, Repr

/-- A command line taken apart. Later values of an option count more. -/
structure Arguments where
  options : List (OptionName × Text) := []
  operands : List Text := []
deriving DecidableEq, Repr

namespace Arguments

def value? (a : Arguments) (name : OptionName) : Option Text := a.options.reverse.lookup name

def has (a : Arguments) (name : OptionName) : Bool := (a.value? name).isSome

/-- The options of an argument, and the one that takes the next argument as its value. -/
abbrev Reading := List (OptionName × Text) × Option OptionName

/-- Reads an option that is written out, possibly with a value behind an equals sign. -/
def readLong (name : OptionName) (value : Option Text) : Except UsageError Reading :=
  match name.takesValue, value with
  | true, some value => .ok ([(name, value)], none)
  | true, none => .ok ([], some name)
  | false, none => .ok ([(name, [])], none)
  | false, some _ => .error (.unexpectedValue name)

/-- Reads joined options of one letter; what stands behind one with a value is its value. -/
def readLetters (known : List OptionName) : Text → Except UsageError Reading
  | [] => .ok ([], none)
  | letter :: rest =>
    match OptionName.find? known [.char '-', letter] with
    | none => .error (.unknownOption [.char '-', letter])
    | some name =>
      if name.takesValue then
        if rest.isEmpty then .ok ([], some name) else .ok ([(name, rest)], none)
      else do
        let (options, next) ← readLetters known rest
        return ((name, []) :: options, next)

/-- Reads an argument that starts with a dash. -/
def readOption (known : List OptionName) (argument : Text) : Except UsageError Reading :=
  let (spelling, value) : Text × Option Text :=
    match Text.cut? "=" argument with
    | some (spelling, value) => (spelling, some value)
    | none => (argument, none)
  match OptionName.find? known spelling, argument with
  | some name, .char '-' :: .char '-' :: _ => readLong name value
  | none, .char '-' :: .char '-' :: _ => .error (.unknownOption spelling)
  | _, argument => readLetters known (argument.drop 1)

/-- Whether an argument is an option; a dash alone is an operand. -/
def isOption (argument : Text) : Bool := argument.startsWith "-" && 1 < argument.length

def cons (options : List (OptionName × Text)) (a : Arguments) : Arguments :=
  { a with options := options ++ a.options }

def operand (argument : Text) (a : Arguments) : Arguments :=
  { a with operands := argument :: a.operands }

/-- Takes a command line apart, where the options in `known` are understood. -/
def read (known : List OptionName) : List Text → Except UsageError Arguments
  | [] => .ok {}
  | argument :: rest =>
    if argument = "--" then .ok { operands := rest }
    else if isOption argument then
      match readOption known argument with
      | .error e => .error e
      | .ok (options, none) => (cons options ·) <$> read known rest
      | .ok (options, some name) =>
        match rest with
        | value :: rest => (cons (options ++ [(name, value)]) ·) <$> read known rest
        | [] => .error (.missingValue name)
    else (operand argument ·) <$> read known rest

end Arguments

end CommandLine

end Dvcs
