import Dvcs.Error
import Dvcs.FileTree
import Dvcs.Git.State
import Dvcs.Process.Handle

/-!
This module contains the world that repositories are in: the files, the commands that can be run and
how they will answer, and a record of what has been asked of them. `Op` is the type of the
operations; a failed operation leaves the world behind as it was when it failed.
-/

namespace Dvcs

/-- A command that has been run. -/
structure Invocation where
  command : List Text
  mode : Mode
  directory : Path
  /-- The variables that are set for the command. -/
  environment : Environment
  /-- The temporary files that an argument names, with their content at the start. -/
  attached : List (Text × Bytes)
  /-- The temporary files in use that are there at the start, with their content. -/
  present : List (Path × Bytes)
  terminated : Nat
  reaped : Nat
deriving DecidableEq, Repr

/-- What is asked of the server that tells Mercurial's configuration. -/
inductive ServerRequest where
  | opened (root : Path)
  | sectionAsked (name : Bytes)
  | closed
deriving DecidableEq, Repr

inductive Event where
  | command (invocation : Invocation)
  | git (event : Git.Event)
  | server (request : ServerRequest)
deriving DecidableEq, Repr

/-- A file that has been asked to be deleted, and the error code if that failed. -/
structure Deletion where
  path : Path
  failure : Option Nat := none
deriving DecidableEq, Repr

/-- How a deletion is reported if it failed; it is none that the file was missing. -/
def Deletion.error? (d : Deletion) : Option SystemError :=
  match d.failure with
  | some code =>
    if code = FileTree.Fault.noEntry.code then none else some ⟨code, some d.path.toText⟩
  | none => none

/-- The entries of a configuration section, names and values. -/
abbrev ConfigSection := List (Bytes × Bytes)

structure World where
  files : FileTree := {}
  /-- The current directory. -/
  directory : Path := ⟨"/", []⟩
  /-- Where temporary files go unless told otherwise. -/
  temporary : Path := ⟨"/", ["tmp"]⟩
  /-- The temporary files in use. -/
  living : List Path := []
  /-- The variables of the environment. -/
  environment : Environment := []
  /-- The commands that can be found, with the files that they are in. -/
  executables : List (Text × Text) := []
  /-- How the commands to come will answer; past their end every command succeeds silently. -/
  responses : List Response := []
  /-- The error codes with which the system refuses the deletions of listed files to come. Where it
  does not, and past their end, what comes of a deletion depends on the files. -/
  refusals : List (Option Nat) := []
  /-- The sections of Mercurial's configuration; none if there is no repository to ask about. -/
  mercurialConfig : Option (List (Bytes × ConfigSection)) := none
  git : Git.State := {}
  /-- What has been printed. -/
  output : Bytes := []
  /-- What has been done, the last event first. -/
  log : List Event := []
  /-- The listed files that have been asked to be deleted, the last one first. -/
  deletions : List Deletion := []
deriving DecidableEq

/-- An operation in the world. -/
abbrev Op := EStateM Error World

namespace Op

def faulty (p : Path) (fault : FileTree.Fault) : Error :=
  .system { code := fault.code, path := some p.toText }

/-- The result of an operation on the file at `p`. -/
def ofFault (p : Path) : Except FileTree.Fault α → Op α
  | .ok a => return a
  | .error fault => throw (faulty p fault)

def ofExcept : Except Error α → Op α
  | .ok a => return a
  | .error e => throw e

/-- The full path of a path that may be seen from the current directory. -/
def absolute (p : Path) : Op Path := return (← get).directory.join p

/-- The null character ends the texts that the system is given, so none of them may hold it. -/
def holdsNull (p : Path) : Bool := p.toText.contains (.char '\x00')

/-- Whether the system can be given the words of a command and the directory to run it in. -/
def isPassable (directory : Path) (arguments : List Text) : Bool :=
  !holdsNull directory && arguments.all (!·.contains (.char '\x00'))

def files : Op FileTree := return (← get).files

/-- Changes the files as far as the system lets it. -/
def changeFiles (p : Path) (change : FileTree → Except FileTree.Fault FileTree) : Op Unit := do
  if holdsNull p then throw .nullCharacter
  let files ← ofFault p (change (← files))
  modify fun w => { w with files := files }

def exists? (p : Path) : Op Bool := return !holdsNull p && (← files).has p

def isDirectory (p : Path) : Op Bool := return !holdsNull p && (← files).isDirectory p

def readFile (p : Path) : Op Bytes := do
  if holdsNull p then throw .nullCharacter
  ofFault p ((← files).read p)

def writeFile (p : Path) (content : Bytes) : Op Unit := changeFiles p (·.write p content)

def unlink (p : Path) : Op Unit := changeFiles p (·.unlink p)

def makeDirectory (p : Path) : Op Unit := changeFiles p (·.makeDirectory p)

def removeTree (p : Path) : Op Unit := changeFiles p (·.remove p)

def record (e : Event) : Op Unit := modify fun w => { w with log := e :: w.log }

end Op

namespace World

/-- A name that no entry of a directory has. -/
def freshPath (w : World) (directory : Path) (suffix : Text) : Path :=
  let named (n : Nat) : Path :=
    ⟨directory.root, directory.parts ++ ["repokit-" ++ Text.ofNat n ++ suffix]⟩
  let candidates := (List.range (w.files.entries.length + 1)).map named
  (candidates.find? fun p => !w.files.has p).getD (named 0)

/-- The world after the temporary file at `p` has been deleted. -/
def withoutTemp (w : World) (p : Path) : World :=
  { w with
    files := (w.files.unlink p).toOption.getD w.files
    living := w.living.erase p }

/-- What comes of a file that is asked to be deleted. -/
def deletion (w : World) (p : Path) : Deletion :=
  match w.refusals.headD none, w.files.unlink p with
  | some code, _ => ⟨p, some code⟩
  | none, .error fault => ⟨p, some fault.code⟩
  | none, .ok _ => ⟨p, none⟩

/-- The world after a file has been asked to be deleted. -/
def afterDeletion (w : World) (p : Path) : World :=
  { w with
    files :=
      if (w.deletion p).failure.isNone then (w.files.unlink p).toOption.getD w.files else w.files
    refusals := w.refusals.tail
    deletions := w.deletion p :: w.deletions }

/-- The temporary files in use that are there, with their content. -/
def present (w : World) : List (Path × Bytes) :=
  w.living.filterMap fun p => (w.files.read p).toOption.map (p, ·)

/-- The temporary files that an argument of a command names. -/
def attached (w : World) (arguments : List Text) : List (Text × Bytes) :=
  arguments.filterMap fun argument =>
    (w.present.find? (·.1.toText = argument)).map fun file => (argument, file.2)

end World

namespace Op

/-- Deletes a file unless it is missing. -/
def unlinkIfThere (p : Path) : Op Unit := do
  if holdsNull p then throw .nullCharacter
  let deletion := (← get).deletion p
  modify (·.afterDeletion p)
  match deletion.error? with
  | some error => throw (.system error)
  | none => return ()

/-- Deletes a temporary file; it may be missing already. -/
def discardTemp (path : Path) : Op Unit := fun w =>
  match w.files.unlink path with
  | .ok _ | .error .noEntry => .ok () (w.withoutTemp path)
  | .error fault => .error (faulty path fault) w

/-- Runs an operation with a temporary file, which is deleted after it, whatever happens. -/
def withTempFile (directory : Option Path) (suffix : Text) (content : Bytes)
    (use : Path → Op α) : Op α := do
  let w ← get
  let path := w.freshPath (w.directory.join (directory.getD w.temporary)) suffix
  writeFile path content
  modify fun w => { w with living := path :: w.living }
  fun w =>
    match use path w with
    | .ok a w => (do discardTemp path; return a : Op α) w
    | .error e w => (do discardTemp path; throw e : Op α) w

/-- Runs a command that the system can be given and lets `use` read from it; `use` has to wait for
its end. -/
def runCommand (mode : Mode) (directory : Path) (environment : Environment) (arguments : List Text)
    (use : Handle → α × Handle) : Op α := fun w =>
  let response := w.responses.headD {}
  let (a, handle) := use (Handle.start mode arguments response)
  let invocation : Invocation :=
    { command := arguments
      mode := mode
      directory := directory
      environment := environment
      attached := w.attached arguments
      present := w.present
      terminated := handle.terminated
      reaped := handle.reaped }
  .ok a { w with
    responses := w.responses.tail
    files := (response.effects arguments).foldl FileTree.change w.files
    log := .command invocation :: w.log }

/-- Runs a command and lets `use` read from it. -/
def command (mode : Mode) (directory : Path) (environment : Environment) (arguments : List Text)
    (use : Handle → α × Handle) : Op α :=
  if isPassable directory arguments then runCommand mode directory environment arguments use
  else throw .nullCharacter

end Op

end Dvcs
