import Dvcs.Hunk.Block
import Dvcs.Patch

/-!
This module contains the reading of conventional unified diffs. Every other line before a file
header is skipped there, so that descriptions and banners may stand between the patches.
-/

namespace Dvcs

namespace Patch

/-- A line without the line feed at its end. -/
def dropNewline (t : Text) : Text := (Text.before? "\n" t).getD t

/-- Cuts at the last place of `sep` that leaves text on both sides. -/
def cutLast? (sep : Text) : Text → Option (Text × Text)
  | [] => none
  | c :: t =>
    match cutLast? sep t with
    | some (before, rest) => some (c :: before, rest)
    | none =>
      match Text.after? sep t with
      | some (d :: rest) => some ([c], d :: rest)
      | _ => none

/-- The two names in a notice that binary files differ. -/
def binaryNames? (line : Text) : Option (Text × Text) := do
  let t ← Text.after? "Binary files " line
  let names ← Text.before? " differ" (dropNewline t)
  if names.contains (.char '\n') then none else cutLast? " and " names

/-- The path in a file header, none for the null device. A tab ends it. -/
def headerPath (dir text : Text) : Except QuoteError (Option Text) :=
  let name := text.takeWhile (· ≠ .char '\t')
  if name = devNull then .ok none
  else (fun path => some (Text.dropStart dir path)) <$> Path.unquote name

/-- The status of a file that goes from one path to another. -/
def statusOf (source target : Option Text) : Status :=
  match source, target with
  | none, _ => .added
  | _, none => .deleted
  | some source, some target => if source = target then .modified else .renamed

/-- A patch of which only the paths and the content are known. -/
def ofPaths (source target : Option Text) (hunks : List Hunk) (binary : Bool) : Patch :=
  { source := { path := source.map Path.ofText }
    target := { path := target.map Path.ofText }
    status := statusOf source target
    hunks := hunks
    binary := binary }

def headerPaths (source target : Text) : Except ReadError (Option Text × Option Text) :=
  match headerPath "a/" source, headerPath "b/" target with
  | .error e, _ => .error (.quote e)
  | _, .error e => .error (.quote e)
  | .ok source, .ok target => .ok (source, target)

theorem length_rest_of_readBlocks {r r' : LineReader} {hs : List Hunk}
    (h : Hunk.readBlocks r = .ok hs r') : r'.rest.length ≤ r.rest.length := by
  fun_induction Hunk.readBlocks r generalizing hs r' with
  | case1 r hr => simp_all; simp [← h.2]
  | case2 => simp at h
  | case3 => simp at h
  | case4 r line rest hr hl hs' r1 hb more r2 hm ih =>
    have h1 := Hunk.length_rest_of_readBlock hb
    have h2 := ih hm
    simp at h
    rw [← h.2]
    omega
  | case5 r line rest hr => simp_all; simp [← h.2]

/-- Reads the second file header and the hunks behind it, the first header being consumed. -/
def readContent (source : Text) (rest : List Text) (n : Nat) :
    EStateM.Result ReadError LineReader Patch :=
  match rest with
  | [] => .error (.diff n (.otherThanTargetHeader none)) ⟨[], n, false⟩
  | line :: rest =>
    match Text.after? "+++ " line with
    | none => .error (.diff (n + 1) (.otherThanTargetHeader (some line))) ⟨rest, n + 1, false⟩
    | some target =>
      match headerPaths source target with
      | .error e => .error e ⟨rest, n + 1, false⟩
      | .ok (source, target) =>
        match Hunk.readBlocks ⟨rest, n + 1, false⟩ with
        | .error e r => .error e r
        | .ok hunks r => .ok (ofPaths source target hunks false) r

theorem length_rest_of_readContent {source : Text} {rest : List Text} {n : Nat} {p : Patch}
    {r : LineReader} (h : readContent source rest n = .ok p r) : r.rest.length ≤ rest.length := by
  unfold readContent at h
  split at h
  · simp at h
  · split at h
    · simp at h
    · split at h
      · simp at h
      · split at h
        · simp at h
        · rename_i hb
          have := length_rest_of_readBlocks hb
          simp at h this
          rw [← h.2]
          simp
          omega

/-- Reads the patches of a unified diff, `n` being the number of lines consumed so far. -/
def readUnifiedFrom (n : Nat) (ls : List Text) : EStateM.Result ReadError LineReader (List Patch) :=
  match ls with
  | [] => .ok [] ⟨[], n, true⟩
  | line :: rest =>
    match Text.after? "--- " line with
    | some source =>
      match _h : readContent source rest (n + 1) with
      | .error e r => .error e r
      | .ok p r =>
        match readUnifiedFrom r.lineNumber r.rest with
        | .error e r => .error e r
        | .ok ps r => .ok (p :: ps) r
    | none =>
      match binaryNames? line with
      | some (source, target) =>
        match headerPaths source target with
        | .error e => .error e ⟨rest, n + 1, false⟩
        | .ok (source, target) =>
          match readUnifiedFrom (n + 1) rest with
          | .error e r => .error e r
          | .ok ps r => .ok (ofPaths source target [] true :: ps) r
      | none =>
        if line.startsWith "@@" || line.startsWith "+++ " then
          .error (.diff (n + 1) (.lineOutsidePatch line)) ⟨line :: rest, n, true⟩
        else readUnifiedFrom (n + 1) rest
termination_by ls.length
decreasing_by
  · have := length_rest_of_readContent _h
    simp
    omega
  · simp
  · simp

/-- Reads a unified diff to the end of the input. -/
def readUnified : Reading (List Patch) := fun r => readUnifiedFrom r.lineNumber r.rest

end Patch

end Dvcs
