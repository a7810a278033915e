import Dvcs.Commit.Dump
import Dvcs.Mercurial.Command
import Dvcs.Mercurial.Extension.Source

/-!
This module contains the reading of history and diffs through the extension. The extension is put
into a temporary file for every command that uses it. A walk through history reads the output of the
command while the command runs, and ends it when the walk is closed early.
-/

namespace Dvcs

namespace Mercurial

/-- Runs an operation with the options that load the extension. -/
def withExtension (r : WorkingCopy) (use : List Text → Op α) : Op α :=
  Op.withTempFile r.temporary ".py" extensionSource fun path =>
    use ["--config", "extensions.repokit_dump=" ++ path.toText]

/-- Runs a command of the extension and lets `use` read from it. -/
def stream (r : WorkingCopy) (arguments : List Text) (use : Handle → α × Handle) : Op α :=
  withExtension r fun options =>
    Op.command .stream r.root toolEnvironment (r.command :: (options ++ arguments)) use

/-- The arguments for a selection of commits. -/
def selection (q : Query) : List Text :=
  List.flatten [
    q.limit.toList.map fun n => "--limit=" ++ Text.ofInt n,
    if q.reverse then ["--reverse"] else [],
    match q.revisions with
    | some revisions => ["--", revisions]
    | none => []]

def failure? : Except Outcome Outcome → Option Error
  | .ok _ => none
  | .error outcome => some (.process outcome)

/-- Ends a command whose output could not be read. A failed command explains garbled output, so its
failure is the error then. -/
def endGarbled (e : ReadError) (h : Handle) : Error × Handle :=
  let (outcome, h) := h.wait
  (if e.line?.isSome && !outcome.succeeded then .process outcome else .read e, h)

/-- Reads commits until the output ends, cannot be read, or the walk is closed behind the commit
with number `take`. -/
def walk (take : Option Nat) (h : Handle) : Traversal × Handle :=
  let found := Commit.readAll (.ofLines h.lines.1)
  let closes := take.any (· ≤ found.items.length)
  if closes then
    ({ commits := found.items.take (take.getD 0), closed := true }, h.leave .closed)
  else
    let h := h.skip found.reader.drawn
    match found.error with
    | some e =>
      let (error, h) := endGarbled e h
      ({ commits := found.items, error := some error }, h)
    | none =>
      let (ending, h) := h.check
      ({ commits := found.items, error := failure? ending }, h)

/-- Walks through history. -/
def commits (r : WorkingCopy) (q : Query) (take : Option Nat) : Op Traversal := do
  if take = some 0 then return { commits := [], closed := true }
  if q.isEmpty then return { commits := [] }
  stream r ("repokit-log" :: selection q) (walk take)

/-- Reads the whole output of a command. Output that cannot be read is an error even where the
command has failed. -/
def readThrough (read : LineReader → Except (ReadError × LineReader) (α × LineReader))
    (h : Handle) : Except Error α × Handle :=
  match read (.ofLines h.lines.1) with
  | .error (e, reader) => (.error (.read e), (h.skip reader.drawn).leave .failed)
  | .ok (a, reader) =>
    match (h.skip reader.drawn).check with
    | (.ok _, h) => (.ok a, h)
    | (.error outcome, h) => (.error (.process outcome), h)

/-- All records, or the error that stopped the reading. -/
def allRecords (reader : LineReader) :
    Except (ReadError × LineReader) (List Metadata × LineReader) :=
  let found := Metadata.readAll reader
  match found.error with
  | some e => .error (e, found.reader)
  | none => .ok (found.items, found.reader)

/-- All patches, or the error that stopped the reading. -/
def allPatches (reader : LineReader) : Except (ReadError × LineReader) (List Patch × LineReader) :=
  match Patch.readExtended Patch.toEnd reader with
  | .ok patches reader => .ok (patches, reader)
  | .error e reader => .error (e, reader)

/-- What is known of commits without their diffs. -/
def metadata (r : WorkingCopy) (q : Query) : Op (List Metadata) := do
  if q.isEmpty then return []
  Op.ofExcept (← stream r ("repokit-log" :: "--no-diffs" :: selection q) (readThrough allRecords))

/-- The changes from one commit to another, or to the working directory. -/
def diff (r : WorkingCopy) (source : Hash) (target : Option Hash) : Op Diff := do
  let arguments : List Text := "repokit-diff" :: "--" :: source.hex :: target.toList.map Hash.hex
  let patches ← Op.ofExcept (← stream r arguments (readThrough allPatches))
  return ⟨source, target, patches⟩

end Mercurial

end Dvcs
