import Dvcs.Git.Failure
import Dvcs.Path
import Dvcs.Process.Environment
import Dvcs.Text.Utf8

/-!
This module contains what git tells about a repository, and the requests that are made of it.
-/

namespace Dvcs

namespace Git

/-- A person of a commit; git may leave out the name or the address. -/
structure Person where
  name : Option Text := none
  email : Option Text := none
deriving DecidableEq, Repr

/-- A message that is not UTF-8 comes as bytes. -/
inductive Message where
  | text (t : Text)
  | bytes (bs : Bytes)
deriving DecidableEq, Repr

/-- A commit as git presents it. -/
structure RawCommit where
  hash : Text
  parents : List Text := []
  author : Person := {}
  committer : Person := {}
  /-- Seconds since the start of 1970. -/
  date : Int := 0
  message : Message := .text []
deriving DecidableEq, Repr

/-- A local branch with the one that it tracks. -/
structure Head where
  name : Text
  tracked : Option Text := none
deriving DecidableEq, Repr

/-- How git answers a command. -/
inductive Answer where
  | output (stdout : Bytes)
  /-- The command fails after it has printed something. -/
  | failure (stdout : Bytes) (report : Report)
  /-- The command cannot be started; the words are those of the library that starts it. -/
  | unstarted (message : Text)
deriving DecidableEq, Repr

namespace Answer

/-- Whether the command gets to run. -/
def starts : Answer → Bool
  | unstarted _ => false
  | _ => true

/-- What the command prints. -/
def stdout : Answer → Bytes
  | output stdout => stdout
  | failure stdout _ => stdout
  | unstarted _ => []

end Answer

/-- What keeps history from being read any further. -/
inductive HistoryStop where
  | failure (report : Report)
  | unstarted (message : Text)
deriving DecidableEq, Repr

/-- A value of an option, as git reads it. -/
inductive ConfigValue where
  | text (t : Text)
  | flag (b : Bool)
  /-- The number `mantissa / 10 ^ places`. -/
  | decimal (mantissa : Int) (places : Nat)
deriving DecidableEq, Repr

namespace ConfigValue

def toText : ConfigValue → Text
  | text t => t
  | flag true => "True"
  | flag false => "False"
  | decimal mantissa 0 => Text.ofInt mantissa
  | decimal mantissa places =>
    let digits := Text.ofNatPadded (places + 1) mantissa.natAbs
    let whole := digits.take (digits.length - places)
    let sign : Text := if mantissa < 0 then "-" else []
    sign ++ whole ++ "." ++ digits.drop (digits.length - places)

end ConfigValue

/-- The values of the options of every section. -/
abbrev Config := List (Text × List (Text × List ConfigValue))

namespace Config

/-- The values of an option, none if there is no such section or no such option in it. -/
def values? (config : Config) (sect option : Text) : Option (List ConfigValue) :=
  (config.lookup sect).bind (·.lookup option)

/-- Makes a value the only one of an option. -/
def set (config : Config) (sect option value : Text) : Config :=
  let options := (config.lookup sect).getD []
  (sect, (option, [.text value]) :: options.filter fun entry => entry.1 ≠ option) ::
    config.filter fun entry => entry.1 ≠ sect

end Config

/-- What git holds and how it will answer. -/
structure State where
  head : Option Text := none
  detached : Bool := false
  branch : Text := "master"
  heads : List Head := []
  tags : List Text := []
  hasReferences : Bool := true
  dirty : Bool := false
  ancestor : Bool := false
  /-- The directory that is checked out, none in a bare repository. -/
  workingTree : Option Path := none
  /-- Whether there is a repository to open. -/
  opens : Bool := true
  /-- The working copies whose repository has been opened. -/
  openRoots : List Path := []
  config : Config := []
  /-- The history, up to a failure to read it. -/
  history : List (RawCommit ⊕ HistoryStop) := []
  /-- The answers to the commands to come; past their end every command succeeds silently. -/
  answers : List Answer := []
  /-- What the commands to come do to files; past their end they leave all files alone. -/
  touched : List (List (Path × FileEffect)) := []
deriving DecidableEq

/-- How the output of a command is taken. -/
inductive Taken where
  /-- As a text. -/
  | text
  /-- As bytes. -/
  | bytes
  /-- Line by line while the command runs. -/
  | lines
deriving DecidableEq, Repr

/-- What has been asked of git. -/
inductive Event where
  | opened (path : Path) (searchParents : Bool)
  | environmentSet (environment : Environment)
  /-- A command; `attached` holds the temporary files that an argument names. -/
  | command (arguments : List Text) (environment : Option Environment) (taken : Taken)
      (attached : List (Text × Bytes)) (waited : Bool)
  | initialized (path : Path) (branch : Text)
  | cloned (source : Text) (target : Path) (environment : Option Environment)
  | executableSet (command : Text)
  | dirtyAsked (untracked : Bool)
  | ancestorAsked (ancestor descendant : Text)
  | historyAsked (revisions : Text) (limit : Option Int) (reverse : Bool)
  | valuesAsked (sect option : Text)
  | valueSet (sect option value : Text)
  | configWritten
  | remoteCreated (name path : Text)
  | closed
deriving DecidableEq, Repr

end Git

end Dvcs
