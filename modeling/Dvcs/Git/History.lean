import Dvcs.Git.Inspect
import Dvcs.Patch.Extended

/-!
This module contains the reading of history and diffs from git. The diffs of a commit are computed
when the walk through history reaches it.
-/

namespace Dvcs

namespace Git

/-- The name of the empty tree, which the first commit is compared with. -/
def emptyTree : Text := "4b825dc642cb6eb9a060e54bf8d69288fbee4904"

def diffArguments : List Text :=
  ["diff", "--find-renames", "--unified=0", "--full-index", "--no-color", "--no-ext-diff"]

def Message.toText : Message → Text
  | .text t => t
  | .bytes bs => Text.decodeReplacing bs

/-- The lines of a message, without line feeds at its end. -/
def messageLines (m : Message) : List Text :=
  match m.toText.dropEndWhile (· = .char '\n') with
  | [] => []
  | t => t.splitOn (.char '\n')

def Person.toAuthor (p : Person) : Author := ⟨p.name.getD [], p.email.bind Author.email?⟩

/-- What is known of a commit. A commit without parents has the null hash as its only one. -/
def RawCommit.metadata (c : RawCommit) : Except Error Metadata := do
  let hash ← Hash.ofText c.hash
  let parents ← c.parents.mapM Hash.ofText
  match Instant.ofSeconds c.date with
  | .error e => throw (.read (.time e))
  | .ok timestamp =>
    return {
      hash := hash
      parents := if parents = [] then [.null] else parents
      author := c.author.toAuthor
      committer := c.committer.toAuthor
      timestamp := timestamp
      message := messageLines c.message }

/-- The patches in some lines. -/
def patchesOf (lines : List Text) : Except Error (List Patch) :=
  match Patch.readExtended Patch.toEnd (.ofLines lines) with
  | .ok patches _ => .ok patches
  | .error e _ => .error (.read e)

/-- The lines of an output whose last line feed is left out already. -/
def diffLines (stdout : Bytes) : List Text :=
  if stdout = [] then [] else (Text.decode stdout).splitOn (.char '\n')

/-- The changes of a commit since one of its parents. -/
def parentDiff (r : WorkingCopy) (c : RawCommit) (m : Metadata) (parent : Hash) : Op Diff := do
  let base := if m.isInitial then emptyTree else parent.hex
  let stdout ← check r (diffArguments ++ [base, c.hash])
  return ⟨parent, some m.hash, ← Op.ofExcept (patchesOf (diffLines stdout))⟩

def commitOf (r : WorkingCopy) (c : RawCommit) : Op Commit := do
  let metadata ← Op.ofExcept c.metadata
  return ⟨metadata, ← metadata.parents.mapM (parentDiff r c metadata)⟩

/-- Which history a query asks for. -/
def revisions (q : Query) : Text := (nonEmpty q.revisions).getD "--all"

def historyFailure (q : Query) : HistoryStop → Error
  | .failure report =>
    .process (Failure.outcome { report with command := ["git", "rev-list", revisions q] })
  | .unstarted message => .unstarted message

/-- The history that a query asks for. Nothing is asked where the answer is known to be empty. -/
def history (r : WorkingCopy) (q : Query) : Op (List (RawCommit ⊕ HistoryStop)) := do
  ensureOpen r
  let s ← state
  if q.isEmpty || (q.revisions.isNone && !s.hasReferences) then return []
  record (.historyAsked (revisions q) q.limit q.reverse)
  return s.history

/-- Walks through history until it ends, cannot be read, or `take` commits have been seen. -/
def walk (r : WorkingCopy) (q : Query) :
    List (RawCommit ⊕ HistoryStop) → (take : Option Nat) → Op Traversal
  | _, some 0 => return { commits := [], closed := true }
  | [], _ => return { commits := [] }
  | .inr stop :: _, _ => return { commits := [], error := some (historyFailure q stop) }
  | .inl c :: rest, take => fun w =>
    match commitOf r c w with
    | .error e w => .ok { commits := [], error := some e } w
    | .ok commit w =>
      match walk r q rest (take.map (· - 1)) w with
      | .error e w => .error e w
      | .ok more w => .ok { more with commits := commit :: more.commits } w

def commits (r : WorkingCopy) (q : Query) (take : Option Nat) : Op Traversal := do
  ensureOpen r
  if take = some 0 then return { commits := [], closed := true }
  walk r q (← history r q) take

/-- What is known of commits without their diffs. -/
def metadata (r : WorkingCopy) (q : Query) : Op (List Metadata) := do
  (← history r q).mapM fun
    | .inl c => Op.ofExcept c.metadata
    | .inr stop => throw (historyFailure q stop)

/-- The changes from one commit to another, or to the working tree. The output is read while the
command runs; a failure of the command shows only when it has been waited for. -/
def diff (r : WorkingCopy) (source : Hash) (target : Option Hash) : Op Diff := do
  ensureOpen r
  let revisions : List Text := source.hex :: target.toList.map Hash.hex
  let arguments : List Text := List.flatten [diffArguments, revisions, ["--"]]
  let answer ← nextAnswer
  let read := patchesOf (Handle.linesOf answer.stdout)
  record (.command arguments none .lines [] (answer.starts && read.toBool))
  match answer with
  | .unstarted message => throw (.unstarted message)
  | .output _ => return ⟨source, target, ← Op.ofExcept read⟩
  | .failure _ report => do
    discard <| Op.ofExcept read
    throw (.process (Failure.outcome { report with command := "git" :: arguments }))

end Git

end Dvcs
