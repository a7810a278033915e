import Dvcs.CommandLine.Request
import Dvcs.Console.Plain
import Dvcs.Discovery

/-!
This module contains the commands of the command line. They are programs over a host, which has the
settings, opens repositories and takes what is printed; `CommandLine.run` is the main function.
-/

namespace Dvcs

namespace CommandLine

/-- How a failure is told. -/
inductive Report where
  | configuration (message : Text)
  | repository (message : Text)
  /-- Nothing is printed about it. -/
  | silent
deriving DecidableEq, Repr

/-- What the commands need, where operations fail with an `ε`. -/
structure Host (ε : Type) (m : Type → Type) where
  /-- The settings, with an environment file instead of the usual ones. -/
  settings : Option Text → m Settings
  envFile? : m (Option Path)
  /-- The repository that a path is in, or the current directory. -/
  repository : Option Text → Settings → m (Inspection m)
  /-- The console that is printed on. -/
  console : Console
  write : Bytes → m Unit
  report : ε → Report

/-- Why a command ends before its end. -/
inductive Stop (ε : Type) where
  | failure (error : ε)
  | unprintable (fault : Console.Fault)
  /-- It has said everything that there is to say. -/
  | told

/-- A command while it runs. -/
abbrev Program (ε : Type) (m : Type → Type) := ExceptT (Stop ε) m

section Programs

variable {ε : Type} {m : Type → Type} [Monad m] [MonadExceptOf ε m]

/-- Runs an operation of the host. -/
def ask (op : m α) : Program ε m α :=
  ExceptT.mk (tryCatch (Except.ok <$> op) fun (e : ε) => pure (.error (.failure e)))

def write (host : Host ε m) (printed : Except Console.Fault Bytes) : Program ε m Unit :=
  match printed with
  | .ok bytes => ask (host.write bytes)
  | .error fault => throw (.unprintable fault)

/-- Prints a text with markup. -/
def say (host : Host ε m) (t : Text) : Program ε m Unit :=
  write host (host.console.text t)

/-- The line that shows a commit. -/
def logLine (m : Metadata) : Text :=
  "[yellow]" ++ m.hash.abbreviate ++ "[/yellow]  " ++ m.timestamp.display ++ "  [cyan]" ++
    m.author.toText ++ "[/cyan]  " ++ m.title

def log (host : Host ε m) (r : Inspection m) (query : Query) : Program ε m Unit := do
  (← ask (r.metadata query)).forM fun metadata => say host (logLine metadata)

def resolve (r : Inspection m) (name : Text) : Program ε m (Option Hash) :=
  ask (r.resolve (.expression name))

def unknownRevision (host : Host ε m) (name : Text) : Program ε m α := do
  say host ("[red]Unknown revision: " ++ name ++ "[/red]")
  throw .told

/-- The row of a table about changes. -/
def statRow (p : Patch) : List Text :=
  let count (n : Nat) : Text := if p.binary then "bin" else Text.ofNat n
  [[.char p.status.letter], Patch.pathText p.path, count p.counts.added, count p.counts.removed,
    count p.counts.modified]

def statTable (d : Diff) : Console.Table :=
  ⟨["Status", "Path", "Added", "Removed", "Modified"], d.patches.map statRow⟩

/-- The line below the table. -/
def statSummary (d : Diff) : Text :=
  Text.ofNat d.patches.length ++ " files, " ++ Text.ofNat d.counts.added ++ " added, " ++
    Text.ofNat d.counts.removed ++ " removed, " ++ Text.ofNat d.counts.modified ++ " modified"

def diff (host : Host ε m) (r : Inspection m) (source : Text) (target : Option Text)
    (stat : Bool) : Program ε m Unit := do
  let sourceHash ← resolve r source
  let targetHash ← target.bindM (resolve r)
  match sourceHash, target, targetHash with
  | none, _, _ => unknownRevision host source
  | some _, some target, none => unknownRevision host target
  | some sourceHash, _, targetHash => do
    let changes ← ask (r.diff sourceHash targetHash)
    if stat then
      write host (host.console.table (statTable changes))
      say host (statSummary changes)
    else ask (host.write changes.toBytes)

def branches (host : Host ε m) (r : Inspection m) : Program ε m Unit := do
  let current ← ask r.currentBranch
  (← ask r.branches).forM fun branch =>
    say host ((if some branch = current then "* " else "  ") ++ branch.name)

def tags (host : Host ε m) (r : Inspection m) : Program ε m Unit := do
  (← ask r.tags).forM fun tag => say host tag.name

def truth (b : Bool) : Text := if b then "True" else "False"

def status (host : Host ε m) (r : Inspection m) : Program ε m Unit := do
  let head ← ask r.head
  let branch ← ask r.currentBranch
  say host "[bold]Repository:[/bold]\n"
  say host ("  Root: " ++ (← ask r.root).toText)
  say host ("  Head: " ++ (head.map Hash.hex).getD "(none)")
  say host ("  Branch: " ++ (branch.map Branch.name).getD "(detached)")
  say host ("  Clean: " ++ truth (← ask r.isClean))
  say host ("  Healthy: " ++ truth (← ask r.isHealthy))

def clean (host : Host ε m) (r : Inspection m) : Program ε m Unit := do
  ask r.clean
  say host "[green]Working directory cleaned[/green]"

def mergeBase (host : Host ε m) (r : Inspection m) (first second : Text) :
    Program ε m Unit := do
  let firstHash ← resolve r first
  let secondHash ← resolve r second
  match firstHash, secondHash with
  | none, _ => unknownRevision host first
  | some _, none => unknownRevision host second
  | some firstHash, some secondHash => do
    say host (← ask (r.mergeBase firstHash secondHash)).hex

def Command.run (host : Host ε m) (r : Inspection m) : Command → Program ε m Unit
  | .log revisions limit reverse => CommandLine.log host r ⟨revisions, limit, reverse⟩
  | .diff source target stat => CommandLine.diff host r source target stat
  | .branches => CommandLine.branches host r
  | .tags => CommandLine.tags host r
  | .status => CommandLine.status host r
  | .clean => CommandLine.clean host r
  | .mergeBase first second => CommandLine.mergeBase host r first second

/-- Runs a command on a repository, which is closed afterwards whatever happens. -/
def runCommand (host : Host ε m) (command : Command) (repository envFile : Option Text) :
    Program ε m Unit := do
  let settings ← ask (host.settings envFile)
  let r ← ask (host.repository repository settings)
  let result ← ExceptT.lift (Command.run host r command).run
  ask r.close
  ExceptT.mk (pure result)

/-- Shows the settings. An environment file that is named is shown as it is named. -/
def showConfig (host : Host ε m) (envFile : Option Text) : Program ε m Unit := do
  let settings ← ask (host.settings envFile)
  say host "[bold]Current Configuration:[/bold]\n"
  say host ("  Mercurial command: " ++ settings.hgCommand)
  say host ("  Git command: " ++ settings.gitCommand)
  say host ("  Default VCS: " ++ settings.defaultBackend.displayName)
  say host ("  Temporary directory: " ++
    (settings.temporary.map Path.toText).getD "(system default)")
  let usual ← if envFile.isNone then ask host.envFile? else pure none
  let shown := nonEmpty envFile <|> usual.map Path.toText
  say host ("  Environment file: " ++ shown.getD "(none)")

/-- The number of this version. -/
def versionText : Text := "0.1.0"

def Request.run (host : Host ε m) : Request → Program ε m Unit
  | .command c path envFile => runCommand host c path envFile
  | .config envFile => showConfig host envFile
  | .version => say host ("repokit version " ++ versionText)

/-- Tells about a failure. -/
def tell (host : Host ε m) : Report → Program ε m Unit
  | .configuration message => say host ("[red]Configuration error: " ++ message ++ "[/red]")
  | .repository message => say host ("[red]Error: " ++ message ++ "[/red]")
  | .silent => return ()

/-- Runs a command line; the result is the exit status. -/
def run (host : Host ε m) (arguments : List Text) : m Nat := do
  match Request.read arguments with
  | .error _ => return 2
  | .ok request =>
    match ← (request.run host).run with
    | .ok _ => return 0
    | .error (.failure e) => do
      discard <| (tell host (host.report e)).run
      return 1
    | .error _ => return 1

end Programs

/-- How an error of an operation is told. Some are none that the commands expect. -/
def reportOf (e : Error) : Report :=
  match e with
  | .configuration _ => .configuration e.message
  | .refusal _ | .process _ | .read (.diff ..) | .read (.record ..) => .repository e.message
  | _ => .silent

/-- The command line in the world. -/
def worldHost : Host Error Op where
  settings := fun envFile => Settings.load { envFile := envFile }
  envFile? := Settings.envFile?
  repository := fun path settings =>
    return (← WorkingCopy.containing path (some settings)).repository.toInspection
  console := Console.plain Console.defaultWidth
  write := fun bytes => modify fun w => { w with output := w.output ++ bytes }
  report := reportOf

end CommandLine

end Dvcs
