import Dvcs.Git
import Dvcs.Mercurial
import Dvcs.Settings

/-!
This module contains the ways to come by a repository: finding the backend that a path belongs to,
and opening, making and cloning working copies of either backend.
-/

namespace Dvcs

namespace Path

/-- A path without the parts that lead back up. -/
def collapse (p : Path) : Path :=
  ⟨p.root, p.parts.foldl (fun (parts : List Text) (part : Text) =>
    if part = ".." then parts.dropLast else parts ++ [part]) []⟩

/-- A path and the directories that it is in, from the inside out. -/
def ancestors (p : Path) : List Path :=
  (List.range (p.parts.length + 1)).map fun n => ⟨p.root, p.parts.take (p.parts.length - n)⟩

end Path

/-- A path that may be missing or empty, which stands for the current directory. -/
def Op.orCurrent (path : Option Text) : Op Path := do
  match nonEmpty path with
  | some t => return Path.ofText t
  | none => return (← get).directory

namespace Backend

/-- The backend that a path belongs to. The innermost directory with a marker decides; in it Git
comes before Mercurial. -/
def find? (path : Path) : Op (Option Backend) := do
  let directories := (← Op.absolute path).collapse.ancestors
  let candidates := directories.flatMap fun directory => all.map (directory, ·)
  let found ← candidates.findM? fun (directory, backend) =>
    Op.exists? (directory.join (Path.ofText backend.marker))
  return found.map (·.2)

/-- The backend that a path belongs to, or the default. -/
def detect (path : Path) (default : Backend) : Op Backend := return (← find? path).getD default

/-- The working copy at a path, which need not exist. -/
def workingCopy (backend : Backend) (path : Path) (command : Text) (temporary : Option Path) :
    Op WorkingCopy :=
  match backend with
  | git => Git.workingCopy path command temporary
  | mercurial => WorkingCopy.locate mercurial path command temporary

/-- The working copy that a path is in, as the tool of the backend has it. -/
def containing (backend : Backend) (path : Path) (command : Text) (temporary : Option Path) :
    Op (Option WorkingCopy) :=
  match backend with
  | git => Git.containing path command temporary
  | mercurial => Mercurial.containing path command temporary

def clone (backend : Backend) (uri : Text) (target : Path) (command : Text)
    (temporary : Option Path) : Op WorkingCopy :=
  match backend with
  | git => Git.clone uri target command temporary
  | mercurial => Mercurial.clone uri target command temporary

end Backend

namespace WorkingCopy

/-- The operations on a working copy. -/
def repository (r : WorkingCopy) : Repository Op :=
  match r.backend with
  | .git => Git.repository r
  | .mercurial => Mercurial.repository r

/-- Loads the settings unless there are some. -/
def settingsOr (settings : Option Settings) : Op Settings :=
  match settings with
  | some settings => return settings
  | none => Settings.load {}

/-- The working copy at a path, which need not exist. Without a backend it is the one found there,
or the default. -/
def create (path : Option Text) (backend : Option Backend) (settings : Option Settings) :
    Op WorkingCopy := do
  let settings ← settingsOr settings
  let root ← Op.orCurrent path
  let backend ← match backend with
    | some backend => pure backend
    | none => Backend.detect root settings.defaultBackend
  discard <| settings.executable backend
  backend.workingCopy root (settings.command backend) settings.temporary

/-- The working copy that a path is in. -/
def containing (path : Option Text) (settings : Option Settings) : Op WorkingCopy := do
  let settings ← settingsOr settings
  let start ← Op.orCurrent path
  let found ← (← Backend.find? start).bindM fun backend => do
    discard <| settings.executable backend
    backend.containing start (settings.command backend) settings.temporary
  match found with
  | some r => return r
  | none => throw (.refusal (.noRepository start.toText))

/-- Makes an empty repository. -/
def make (path : Option Text) (backend : Option Backend) (settings : Option Settings) :
    Op WorkingCopy := do
  (← create path backend settings).repository.init

/-- Clones a repository. -/
def clone (uri : Text) (target : Path) (backend : Backend) (settings : Option Settings) :
    Op WorkingCopy := do
  let settings ← settingsOr settings
  discard <| settings.executable backend
  backend.clone uri target (settings.command backend) settings.temporary

end WorkingCopy

end Dvcs
