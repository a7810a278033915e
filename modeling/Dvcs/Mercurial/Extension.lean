import Dvcs.Commit.Dump
import Dvcs.Text.Utf8

/-!
This module contains what the extension does inside hg: it asks Mercurial for revisions and diffs
and writes the commits as a stream of records and markers.
-/

namespace Dvcs

namespace Mercurial

namespace Extension

/-- The blanks of ASCII. -/
def isBlank (b : UInt8) : Bool := (9 ≤ b && b ≤ 13) || b = 32

def trim (bs : Bytes) : Bytes := ((bs.dropWhile isBlank).reverse.dropWhile isBlank).reverse

/-- The bytes up to the first `b`, and those behind it. -/
def cutFirst? (b : UInt8) : Bytes → Option (Bytes × Bytes)
  | [] => none
  | c :: bs =>
    if c = b then some ([], bs)
    else (cutFirst? b bs).map fun (before, behind) => (c :: before, behind)

/-- The bytes up to the last `b`, and those behind it. -/
def cutLast? (b : UInt8) (bs : Bytes) : Option (Bytes × Bytes) :=
  (cutFirst? b bs.reverse).map fun (behind, before) => (before.reverse, behind.reverse)

/-- The name and the address of a user. The address stands between the first `<` and the last `>`;
a user where these are missing or the other way round has no address. -/
def splitUser (user : Bytes) : Bytes × Bytes :=
  match cutFirst? 60 user with
  | none => (trim user, [])
  | some (name, rest) =>
    match cutLast? 62 rest with
    | none => (trim user, [])
    | some (email, _) => (trim name, trim email)

/-- A commit as Mercurial presents it. -/
structure Changeset where
  hex : Bytes
  parents : List Bytes
  user : Bytes
  description : Bytes
  /-- The digits of the time in seconds. -/
  digits : Int
  /-- How many of the digits stand behind the decimal point. -/
  places : Nat
deriving DecidableEq, Repr

namespace Changeset

/-- The whole seconds of the time, a fraction being cut off. -/
def seconds (c : Changeset) : Int := c.digits.tdiv (Nat.pow 10 c.places)

/-- The lines of the description; an empty one has none. -/
def message (c : Changeset) : List Bytes :=
  if c.description.isEmpty then [] else c.description.splitOn 10

/-- The lines of the record of a commit. Mercurial knows no separate committer. -/
def record (c : Changeset) : List Bytes :=
  let (name, email) := splitUser c.user
  [ Text.encode Metadata.sentinel,
    c.hex,
    [32].intercalate c.parents,
    name,
    email,
    name,
    email,
    Text.encode (Text.ofInt c.seconds),
    Text.encode (Text.ofNat c.message.length) ] ++ c.message

end Changeset

/-- What the extension asks Mercurial for. -/
inductive Request where
  /-- All revisions that an expression selects. -/
  | revisions (expression : Bytes)
  /-- The one revision that an expression names. -/
  | revision (expression : Bytes)
  /-- A diff in git's format without context; without a target it goes to the working copy. -/
  | diff (source : Bytes) (target : Option Bytes)
deriving DecidableEq, Repr

/-- What Mercurial answers. -/
structure Host where
  /-- The commits by revision number. -/
  changesets : List Changeset
  /-- The revision numbers that an expression selects. -/
  revisions : Bytes → List Nat
  /-- The pieces of a diff. -/
  diff : Bytes → Option Bytes → List Bytes

/-- What the extension has asked for and what it has written. -/
structure Output where
  requests : List Request := []
  written : Bytes := []
deriving DecidableEq, Repr

namespace Output

def append (a b : Output) : Output := ⟨a.requests ++ b.requests, a.written ++ b.written⟩

instance : Append Output := ⟨append⟩

def lines (ls : List Bytes) : Output := { written := ls.flatMap (· ++ [10]) }

def concat (os : List Output) : Output := os.foldr (· ++ ·) {}

end Output

/-- Which commits to write and how. -/
structure Options where
  expression : Bytes := Text.encode "all()"
  /-- Only the newest ones, so many of them; zero stands for all. -/
  limit : Int := 0
  reverse : Bool := false
  noDiffs : Bool := false
deriving DecidableEq, Repr

/-- The first revisions up to a limit; a negative one is counted from the end. -/
def limited (limit : Int) (revisions : List Nat) : List Nat :=
  match limit with
  | .ofNat 0 => revisions
  | .ofNat n => revisions.take n
  | .negSucc n => revisions.take (revisions.length - (n + 1))

/-- The revisions in the order in which they are written. -/
def Options.order (options : Options) (revisions : List Nat) : List Nat :=
  let newest := limited options.limit (revisions.mergeSort (fun a b => decide (b ≤ a)))
  if options.reverse then newest.reverse else newest

def writeDiff (host : Host) (source : Bytes) (target : Option Bytes) : Output :=
  ⟨[.diff source target], (host.diff source target).flatten⟩

/-- A marker and the diff behind it. -/
def writeParentDiff (host : Host) (c : Changeset) (parent : Bytes) : Output :=
  .lines [Text.encode (Metadata.sentinel ++ "diff ") ++ parent] ++
    writeDiff host parent (some c.hex)

def writeCommit (host : Host) (noDiffs : Bool) (c : Changeset) : Output :=
  .lines c.record ++
    if noDiffs then {} else .concat (c.parents.map (writeParentDiff host c))

/-- The commits that an expression selects. -/
def log (host : Host) (options : Options) : Output :=
  let revisions := options.order (host.revisions options.expression)
  ⟨[.revisions options.expression], []⟩ ++
    .concat ((revisions.filterMap (host.changesets[·]?)).map (writeCommit host options.noDiffs))

/-- The changes from one revision to another, or to the working copy. -/
def diff (host : Host) (source : Bytes) (target : Option Bytes) : Output :=
  let target := target.filter (!·.isEmpty)
  ⟨.revision source :: (target.map Request.revision).toList, []⟩ ++ writeDiff host source target

end Extension

end Mercurial

end Dvcs
