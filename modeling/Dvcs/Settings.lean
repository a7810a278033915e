import Dvcs.Repository
import Dvcs.Settings.EnvFile
import Dvcs.Text.LowerCase
import Dvcs.Text.Strict

/-!
This module contains the settings and where they come from: what the caller gives, the environment,
and environment files. A source counts only where those before it say nothing.
-/

namespace Dvcs

structure Settings where
  hgCommand : Text := "hg"
  gitCommand : Text := "git"
  /-- The backend that is assumed where no repository is found. -/
  defaultBackend : Backend := .git
  /-- Where temporary files go, if not to the usual place. -/
  temporary : Option Path := none
deriving DecidableEq, Repr

namespace Settings

/-- A value that a source has for a setting. -/
inductive Value where
  | nothing
  | text (t : Text)
  /-- Neither; messages name the kind of such a value. -/
  | other (kind : Text)
deriving DecidableEq, Repr

/-- What the caller gives. -/
structure Given where
  hgCommand : Option Value := none
  gitCommand : Option Value := none
  defaultBackend : Option Value := none
  temporary : Option Value := none
  /-- An environment file that takes the place of the usual ones. -/
  envFile : Option Text := none
deriving DecidableEq, Repr

/-- The usual environment files; an earlier one counts more. -/
def envFileNames : List Text := [".env.repokit", ".env"]

/-- The lower case of what the names of all variables start with. -/
def variablePrefix : Text := "repokit_"

/-- The value of a setting; of variables that differ in case only the last one counts. -/
def lookup (values : EnvFile.Values) (setting : Text) : Option Value :=
  let named := values.filter fun entry => entry.1.toLower = variablePrefix ++ setting
  (named.getLast?.bind (·.2)).map .text

/-- The environment file in use: the first of the usual ones that is there. -/
def envFile? : Op (Option Path) := do
  let paths ← envFileNames.mapM fun name => Op.absolute (Path.ofText name)
  paths.findM? Op.exists?

/-- The values that an environment file binds; what is no file binds none. -/
def readEnvFile (name : Text) : Op EnvFile.Values := do
  let path ← Op.absolute (Path.ofText name)
  match (← Op.files).get? path with
  | some (.file content) => do
    let text ← Op.ofExcept ((Text.decodeStrict content).mapError .codec)
    return EnvFile.read (← get).environment text
  | _ => return []

/-- What the sources behind the caller say, the foremost first. A file that the caller names counts
more than the environment, the usual ones count less. -/
def sources (envFile : Option Text) : Op (List EnvFile.Values) := do
  let environment : EnvFile.Values :=
    (← get).environment.map fun (name, value) => (name, some value)
  let usual ← envFileNames.reverse.mapM readEnvFile
  match envFile with
  | none => return [environment, usual.flatten]
  | some name => return [← readEnvFile name, environment]

/-- The backend that a value names; `hg` is another name of Mercurial. -/
def backendOf : Value → Except ConfigurationError Backend
  | .nothing => .ok .git
  | .other kind => .error (.unnamedBackend kind)
  | .text t =>
    let name := Text.toLower t.trim
    if name = "hg" then .ok .mercurial
    else
      match Backend.ofText? name with
      | some backend => .ok backend
      | none => .error (.unknownBackend t (Backend.all.map Backend.value))

def commandOf (setting : Text) : Value → Except Invalid Text
  | .text t => .ok t
  | _ => .error (.command setting)

/-- The directory that a value names, which has to be there. -/
def temporaryOf : Value → Op (Except Invalid (Option Path))
  | .nothing => return .ok none
  | .other _ => return .error .temporaryDirectory
  | .text t => do
    let path := Path.ofText t
    if ← Op.isDirectory (← Op.absolute path) then return .ok (some path)
    else throw (.configuration (.noTemporaryDirectory path.toText))

def causeOf : Except Invalid α → Option Invalid
  | .ok _ => none
  | .error cause => some cause

/-- Collects the settings. Commands that are no texts are reported together, at the end. -/
def load (given : Given) : Op Settings := do
  if let some name := given.envFile then
    if !(← Op.exists? (← Op.absolute (Path.ofText name))) then
      throw (.configuration (.noEnvFile name))
  let sources ← sources given.envFile
  let valueOf (own : Option Value) (setting : Text) : Option Value :=
    own <|> sources.findSome? (lookup · setting)
  let usual : Settings := {}
  let hgCommand := ((valueOf given.hgCommand "hg_command").map (commandOf "hg_command")).getD
    (.ok usual.hgCommand)
  let gitCommand := ((valueOf given.gitCommand "git_command").map (commandOf "git_command")).getD
    (.ok usual.gitCommand)
  let defaultBackend ← Op.ofExcept <|
    (((valueOf given.defaultBackend "default_vcs").map backendOf).getD
      (.ok usual.defaultBackend)).mapError .configuration
  let temporary ← match valueOf given.temporary "temp_dir" with
    | some value => temporaryOf value
    | none => pure (.ok usual.temporary)
  match hgCommand, gitCommand, temporary with
  | .ok hgCommand, .ok gitCommand, .ok temporary =>
    return ⟨hgCommand, gitCommand, defaultBackend, temporary⟩
  | _, _, _ =>
    throw (.invalid
      ([causeOf hgCommand, causeOf gitCommand, causeOf temporary].filterMap id))

/-- The command that runs the tool of a backend. -/
def command (s : Settings) : Backend → Text
  | .git => s.gitCommand
  | .mercurial => s.hgCommand

/-- The file that the command of a backend is in. -/
def executable (s : Settings) (backend : Backend) : Op Text := do
  match (← get).executables.lookup (s.command backend) with
  | some file => return file
  | none => throw (.configuration (.noExecutable backend.displayName (s.command backend)))

end Settings

end Dvcs
