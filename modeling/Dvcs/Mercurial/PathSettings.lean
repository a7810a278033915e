import Dvcs.Mercurial.Inspect

/-!
This module contains the aliases of remote repositories in the configuration file of a repository.
Setting an alias changes its own entries only; all other lines stay as they are.
-/

namespace Dvcs

namespace Mercurial

namespace PathSettings

def sectionHeader : Text := "[paths]"

/-- Whether a line starts a section. -/
def isHeader (line : Text) : Bool := line.trim.startsWith "[" && line.trim.endsWith "]"

/-- The key of an entry. -/
def key? (line : Text) : Option Text := (Text.cut? "=" line.trim).map fun (key, _) => key.trim

def pushKey (remote : Text) : Text := remote ++ "-push"

/-- The keys that say where a remote is. -/
def ownKeys (remote : Text) : List Text := [remote, pushKey remote, remote ++ ":pushurl"]

/-- The entries of a remote. Without a location to push to, the entry for it is empty. -/
def entries (remote pull : Text) (push : Option Text) : List Text :=
  [remote ++ " = " ++ pull, pushKey remote ++ " = " ++ push.getD []]

/-- Puts new entries behind the first header of the section, and drops the entries with own keys
from the section. `placed` tells whether the entries have been put, `inside` whether the lines
belong to the section. -/
def place (own : List Text) (new : List Text) (placed inside : Bool) : List Text → List Text × Bool
  | [] => ([], placed)
  | line :: rest =>
    if isHeader line then
      let inside := line.trim == sectionHeader
      let (lines, done) := place own new (placed || inside) inside rest
      (line :: (if inside && !placed then new ++ lines else lines), done)
    else if inside && (key? line).any own.contains then place own new placed inside rest
    else
      let (lines, done) := place own new placed inside rest
      (line :: lines, done)

/-- The lines of the file after an alias has been set. -/
def update (remote pull : Text) (push : Option Text) (lines : List Text) : List Text :=
  let new := entries remote pull push
  match place (ownKeys remote) new false false lines with
  | (lines, true) => lines
  | (lines, false) => lines ++ sectionHeader :: new

end PathSettings

/-- The configuration file of a repository. -/
def settingsFile (r : WorkingCopy) : Path := r.path [hgDirectory, "hgrc"]

/-- The lines of the configuration file, none if it is missing. -/
def settingsLines (r : WorkingCopy) : Op (List Text) := do
  if !(← Op.exists? (settingsFile r)) then return []
  let content ← Op.readFile (settingsFile r)
  return (← Op.ofExcept ((Text.decodeStrict content).mapError .codec)).unifyNewlines.lines

/-- Writes a text to a file. The file is emptied before the text is checked. -/
def writeText (p : Path) (t : Text) : Op Unit := do
  Op.writeFile p []
  Op.writeFile p (← Op.ofExcept ((Text.encodeStrict t).mapError .codec))

def setPaths (r : WorkingCopy) (remote pull : Text) (push : Option Text) : Op Unit := do
  let lines := PathSettings.update remote pull push (← settingsLines r)
  writeText (settingsFile r) (Text.join "\n" lines ++ "\n")

/-- Where a remote is pulled from. -/
def pullPath (r : WorkingCopy) (remote : Text) : Op (Option Text) :=
  configOnce r ("paths." ++ remote)

/-- Where a remote is pushed to; without a setting of its own, where it is pulled from. -/
def pushPath (r : WorkingCopy) (remote : Text) : Op (Option Text) := do
  match nonEmpty (← configOnce r ("paths." ++ PathSettings.pushKey remote)) with
  | some path => return some path
  | none =>
    match nonEmpty (← configOnce r ("paths." ++ remote ++ ":pushurl")) with
    | some path => return some path
    | none => pullPath r remote

end Mercurial

end Dvcs
