import Dvcs.CommandLine

/-!
This module contains the program. It looks at the system as far as a request asks about it, carries
the request out in a world that holds what has been seen, and prints the output. It starts no
commands itself and so has no executables to offer: a request that needs one ends with the report
that it is missing.
-/

namespace Dvcs

namespace CommandLine

/-- The variables that settings are read from. -/
def variableNames : List String :=
  ["hg_command", "git_command", "default_vcs", "temp_dir"].map fun setting =>
    ("repokit_" ++ setting).toUpper

/-- The place that a request looks for a repository from. -/
def Request.repository? : Request → Option Text
  | .command _ repository _ => repository
  | _ => none

/-- The environment file that a request names. -/
def Request.envFile? : Request → Option Text
  | .command _ _ envFile => envFile
  | .config envFile => envFile
  | .version => none

/-- The characters of a text, as the system takes them. -/
def characters (t : Text) : String :=
  String.ofList (t.filterMap fun
    | .char c => some c
    | .byte _ => none)

/-- Puts what the system has at a path into a tree, with the directories around it. -/
def observe (t : FileTree) (p : Path) : IO FileTree := do
  let file := (← IO.currentDir) / characters p.toText
  let inside := (t.makeDirectory ⟨p.root, p.parts.dropLast⟩).toOption.getD t
  if ← file.isDir then return (inside.makeDirectory p).toOption.getD t
  if ← file.pathExists then
    let content ← IO.FS.readBinFile file
    return (inside.write p content.toList).toOption.getD t
  return t

/-- A place and the markers of the repositories that it may be in. -/
def around (p : Path) : List Path :=
  p :: p.collapse.ancestors.flatMap fun directory =>
    Backend.all.map fun backend => directory.join (Path.ofText backend.marker)

/-- The world that a request is carried out in. -/
def observeWorld (request : Request) : IO World := do
  let directory := Path.ofText (toString (← IO.currentDir))
  let environment ← variableNames.filterMapM fun name => do
    return (← IO.getEnv name).map fun value => (Text.ofString name, Text.ofString value)
  let start := directory.join (Path.ofText (request.repository?.getD []))
  let envFiles := (Settings.envFileNames ++ request.envFile?.toList).map fun name =>
    directory.join (Path.ofText name)
  let files ← (directory :: around start ++ envFiles).foldlM observe {}
  let w : World := { files := files, directory := directory, environment := environment }
  let temporary : List Path :=
    match Settings.sources request.envFile? w with
    | .ok sources _ =>
      match sources.findSome? (Settings.lookup · "temp_dir") with
      | some (.text place) => [directory.join (Path.ofText place)]
      | _ => []
    | .error _ _ => []
  return { w with files := ← temporary.foldlM observe files }

end CommandLine

end Dvcs

open Dvcs in
def main (arguments : List String) : IO UInt32 := do
  let arguments := arguments.map Text.ofString
  let w ← match CommandLine.Request.read arguments with
    | .ok request => CommandLine.observeWorld request
    | .error _ => pure {}
  match CommandLine.run CommandLine.worldHost arguments w with
  | .ok status w => do
    (← IO.getStdout).write ⟨w.output.toArray⟩
    return status.toUInt32
  | .error e _ => do
    IO.eprintln (CommandLine.characters e.message)
    return 1
