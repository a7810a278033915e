import Dvcs.Git.Failure
import Dvcs.ReadError
import Dvcs.Text.Strict

/-!
This module contains everything that can go wrong in an operation, and how it is said.
-/

namespace Dvcs

/-- Why a value is refused. -/
inductive Invalid where
  | hash (text : Text)
  /-- A number of lines, or the first of them, is negative. -/
  | negative (field : Text)
  | rangeMismatch (range : Range) (lines : Nat)
  /-- The setting of a command is not a text. -/
  | command (setting : Text)
  | temporaryDirectory
deriving DecidableEq, Repr

namespace Invalid

def message : Invalid → Text
  | hash text => "hex: Value error, Invalid hash: " ++ text.cited
  | negative field => field ++ ": Input should be greater than or equal to 0"
  | rangeMismatch range lines =>
    "Value error, Range " ++ range.toText ++ " does not match " ++ Text.ofNat lines ++ " lines"
  | command setting => setting ++ ": Input should be a valid string"
  | temporaryDirectory => "temp_dir: Input is not a valid path for <class 'pathlib.Path'>"

end Invalid

/-- The kinds of names that have a fixed list of members. -/
inductive Family where
  | fileType
  | status
  | backend
deriving DecidableEq, Repr

namespace Family

def name : Family → Text
  | fileType => "FileType"
  | status => "PatchStatus"
  | backend => "VCSType"

end Family

/-- A step that failed while others went on. -/
inductive StepFailure where
  | process (outcome : Outcome)
  | system (error : SystemError)
deriving DecidableEq, Repr

namespace StepFailure

def message : StepFailure → Text
  | process outcome => outcome.failureMessage
  | system error => error.message

end StepFailure

/-- Why there is not exactly one best common ancestor. -/
inductive AncestorCount where
  /-- The answer of the tool, which lists them. -/
  | listed (outcome : Outcome)
  | counted (n : Nat)
deriving DecidableEq, Repr

/-- Why a repository does not do what it is asked for. -/
inductive Refusal where
  | notMercurial (root : Text)
  | notGit (root : Text)
  | noRepository (path : Text)
  | dirtyCheckout (target : Text)
  | dirtyRebase
  | unresolved (reference : Text)
  | otherCommitter
  | otherDate
  /-- A fetch introduced more than one head. -/
  | newHeads (refspec uri : Text) (count : Nat)
  /-- A fetch named more than one head. -/
  | fetchedHeads (refspec uri : Text) (count : Nat)
  | nothingFetched (uri : Text)
  | noNewCommit
  | squashInEmpty
  | mergeBases (first second : Hash) (found : AncestorCount)
  /-- Steps of a cleaning failed; one of them is given as the cause. -/
  | cleanFailed (failures : List StepFailure) (cause : StepFailure)
  | notImplemented (operation backend : Text)
deriving DecidableEq

namespace Refusal

def message : Refusal → Text
  | notMercurial root => "Not a Mercurial repository: " ++ root
  | notGit root => "Not a Git repository: " ++ root
  | noRepository path => "Not a repository: " ++ path
  | dirtyCheckout target =>
    "Cannot check out " ++ target ++ ": working directory has local modifications"
  | dirtyRebase => "Cannot rebase: working directory has local modifications"
  | unresolved reference => "Cannot resolve " ++ reference
  | otherCommitter => "Mercurial cannot record a committer different from the author"
  | otherDate => "Mercurial cannot record a commit date different from the author date"
  | newHeads refspec uri count =>
    "Fetching " ++ refspec ++ " from " ++ uri ++ " introduced " ++ Text.ofNat count ++ " new heads"
  | fetchedHeads refspec uri count =>
    "Fetching " ++ refspec ++ " from " ++ uri ++ " produced " ++ Text.ofNat count ++ " heads"
  | nothingFetched uri => "Nothing fetched from " ++ uri ++ " and the repository is empty"
  | noNewCommit => "Could not resolve the new commit"
  | squashInEmpty => "Cannot squash in an empty repository"
  | mergeBases first second found =>
    let wording :=
      "Expected exactly one merge base of " ++ first.abbreviate ++ " and " ++ second.abbreviate
    match found with
    | .listed outcome => wording ++ "\n" ++ outcome.toText
    | .counted n => wording ++ ", found " ++ Text.ofNat n
  | cleanFailed failures _ =>
    "Failed to clean working directory:\n" ++ Text.join "\n" (failures.map StepFailure.message)
  | notImplemented operation backend => operation ++ " is not implemented for " ++ backend

end Refusal

/-- What is wrong with the settings. -/
inductive ConfigurationError where
  | unknownBackend (value : Text) (valid : List Text)
  /-- The value is of a kind that cannot name a backend. -/
  | unnamedBackend (kind : Text)
  | noEnvFile (path : Text)
  | noTemporaryDirectory (path : Text)
  | noExecutable (backend command : Text)
deriving DecidableEq, Repr

namespace ConfigurationError

def message : ConfigurationError → Text
  | unknownBackend value valid =>
    "Invalid VCS: " ++ value ++ ". Valid options: [" ++ Text.join ", " (valid.map Text.cited) ++ "]"
  | unnamedBackend kind => "Invalid VCS type: <class '" ++ kind ++ "'>"
  | noEnvFile path => "Environment file not found: " ++ path
  | noTemporaryDirectory path => "Temporary directory does not exist: " ++ path
  | noExecutable backend command => backend ++ " executable not found: " ++ command

end ConfigurationError

/-- Everything that can go wrong in an operation. -/
inductive Error where
  | read (error : ReadError)
  | range (error : RangeError)
  | invalid (causes : List Invalid)
  | unknown (family : Family) (text : Text)
  | process (outcome : Outcome)
  | system (error : SystemError)
  | git (failure : Git.Failure)
  | codec (error : CodecError)
  | refusal (cause : Refusal)
  | configuration (error : ConfigurationError)
  /-- A configuration key names no section and option. -/
  | badKey (key : Text)
  /-- The current branch has no commit yet. -/
  | unbornBranch
  /-- A file name or a word of a command holds the null character. -/
  | nullCharacter
  /-- Git could not be started; the words are those of the library that starts it. -/
  | unstarted (message : Text)
  /-- A file is to be copied onto itself; the names as messages cite them. -/
  | sameFile (source target : Text)
deriving DecidableEq

namespace Error

def message : Error → Text
  | read error => error.message
  | range error => error.message
  | invalid causes => Text.join "; " (causes.map Invalid.message)
  | unknown family text => text.cited ++ " is not a valid " ++ family.name
  | process outcome => outcome.failureMessage
  | system error => error.message
  | git failure => failure.message
  | codec error => error.message
  | refusal r => r.message
  | configuration error => error.message
  | badKey key => "Invalid configuration key: " ++ key
  | unbornBranch => "Reference at 'refs/heads/master' does not exist"
  | nullCharacter => "embedded null byte"
  | unstarted message => message
  | sameFile source target => source ++ " and " ++ target ++ " are the same file"

end Error

end Dvcs
