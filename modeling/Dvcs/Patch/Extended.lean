import Dvcs.Patch.Unified

/-!
This module contains the reading of diffs with extended headers. The header lines of a patch may
come in any order and may repeat; a later line overrules an earlier one. The diff ends with the
input, or before the first line outside of the hunks that the caller marks as a stop.
-/

namespace Dvcs

namespace Patch

/-- What the header lines of a patch have told so far. -/
structure Header where
  sourcePath : Text
  targetPath : Text
  status : Status := .modified
  sourceType : Option FileType := none
  targetType : Option FileType := none
  indexType : Option FileType := none
  sourceHash : Option Hash := none
  targetHash : Option Hash := none
  score : Option Nat := none
deriving DecidableEq

/-- What a line of the header leads to. -/
inductive HeaderLine where
  /-- More header lines may follow. -/
  | header (h : Header)
  /-- The content is binary and not shown. -/
  | binaryNotice
  /-- The content is binary and follows. -/
  | binaryPayload
  /-- The first of the two file headers before the hunks. -/
  | fileHeader
deriving DecidableEq

def isHexDigit : Sym → Bool
  | .char c => ('0' ≤ c && c ≤ '9') || ('a' ≤ c && c ≤ 'f') || ('A' ≤ c && c ≤ 'F')
  | .byte _ => false

/-- The two object names of an index line, and the mode behind them. -/
def indexFields? (line : Text) : Option (Text × Text × Option Text) := do
  let t ← Text.after? "index " (dropNewline line)
  let (source, t) := t.span isHexDigit
  let t ← Text.after? ".." t
  let (target, t) := t.span isHexDigit
  if source.isEmpty || target.isEmpty then none
  else
    match t with
    | [] => some (source, target, none)
    | .char ' ' :: mode =>
      if mode.length = 6 && mode.all Sym.isDigit then some (source, target, some mode) else none
    | _ => none

/-- The digits of a line that tells how similar, or how different, two files are. -/
def scoreDigits? (line : Text) : Option Text := do
  let t ← Text.after? "similarity index " (Text.dropStart "dis" (dropNewline line))
  let digits ← Text.before? "%" t
  if digits.isEmpty || !digits.all Sym.isDigit then none else some digits

def fileType (mode : Text) (line : Nat) : Except ReadError FileType :=
  match FileType.ofMode? mode.trim with
  | some type => .ok type
  | none => .error (.diff line (.unknownMode mode))

def unquoted (text : Text) : Except ReadError Text :=
  match Path.unquote text with
  | .ok path => .ok path
  | .error e => .error (.quote e)

namespace Header

/-- The lines that give a mode. -/
def modeLine? (h : Header) (n : Nat) (line : Text) : Option (Except ReadError Header) :=
  match Text.after? "old mode " line with
  | some mode => some ((fun type => { h with sourceType := some type }) <$> fileType mode n)
  | none =>
    match Text.after? "new mode " line with
    | some mode => some ((fun type => { h with targetType := some type }) <$> fileType mode n)
    | none =>
      match Text.after? "new file mode " line with
      | some mode =>
        some ((fun type => { h with status := .added, targetType := some type }) <$>
          fileType mode n)
      | none =>
        match Text.after? "deleted file mode " line with
        | some mode =>
          some ((fun type => { h with status := .deleted, sourceType := some type }) <$>
            fileType mode n)
        | none => none

/-- The lines about a rename or copy. -/
def moveLine? (h : Header) (line : Text) : Option (Except ReadError Header) :=
  match Text.after? "rename from " line with
  | some path =>
    some ((fun path => { h with status := .renamed, sourcePath := path }) <$> unquoted path)
  | none =>
    match Text.after? "rename to " line with
    | some path => some ((fun path => { h with targetPath := path }) <$> unquoted path)
    | none =>
      match Text.after? "copy from " line with
      | some path =>
        some ((fun path => { h with status := .copied, sourcePath := path }) <$> unquoted path)
      | none =>
        match Text.after? "copy to " line with
        | some path => some ((fun path => { h with targetPath := path }) <$> unquoted path)
        | none => none

/-- The lines that tell a similarity. -/
def scoreLine? (h : Header) (line : Text) : Option (Except ReadError Header) :=
  match scoreDigits? line with
  | some digits =>
    match Text.natural? digits with
    | some (.error e) => some (.error (.numeral e))
    | some (.ok score) => some (.ok { h with score := some score })
    | none => none
  | none => none

/-- The line with the object names. A name that is cut short is not kept. -/
def indexLine? (h : Header) (n : Nat) (line : Text) : Option (Except ReadError Header) :=
  match indexFields? line with
  | some (source, target, mode) =>
    let h := { h with sourceHash := Hash.ofText? source, targetHash := Hash.ofText? target }
    match mode with
    | some mode => some ((fun type => { h with indexType := some type }) <$> fileType mode n)
    | none => some (.ok h)
  | none => none

/-- Takes one line of the header, the line with number `n`. -/
def step (h : Header) (n : Nat) (line : Text) : Except ReadError HeaderLine :=
  match h.modeLine? n line <|> h.scoreLine? line <|> h.moveLine? line <|> h.indexLine? n line with
  | some (.ok h) => .ok (.header h)
  | some (.error e) => .error e
  | none =>
    if (binaryNames? line).isSome then .ok .binaryNotice
    else if line = "GIT binary patch" then .ok .binaryPayload
    else if line.startsWith "--- " then .ok .fileHeader
    else .error (.diff n (.unexpectedHeaderLine line))

/-- The patch that a header describes. Without an explicit mode, the one of the index line counts
for both sides, and the target keeps the type of the source. -/
def toPatch (h : Header) (hunks : List Hunk) (binary : Bool) : Patch :=
  let keepsFile := h.status ≠ .added ∧ h.status ≠ .deleted
  let sourceType := if keepsFile then h.sourceType <|> h.indexType else h.sourceType
  let targetType :=
    if keepsFile then h.targetType <|> h.indexType <|> sourceType else h.targetType
  { source :=
      { path := if h.status = .added then none else some (Path.ofText h.sourcePath)
        type := sourceType
        hash := h.sourceHash }
    target :=
      { path := if h.status = .deleted then none else some (Path.ofText h.targetPath)
        type := targetType
        hash := h.targetHash }
    status := h.status
    score := h.score.map Int.ofNat
    hunks := hunks
    binary := binary }

end Header

/-- Whether a diff ends, or the next patch starts, with a line. -/
def endsPatch (stop : Text → Bool) (line : Text) : Bool := line.startsWith patchHeader || stop line

/-- Skips binary content, `n` being the number of lines consumed so far. -/
def skipPayload (stop : Text → Bool) (n : Nat) : List Text → LineReader
  | [] => ⟨[], n, true⟩
  | line :: rest =>
    if endsPatch stop line then ⟨line :: rest, n, true⟩ else skipPayload stop (n + 1) rest

/-- Reads the second file header and the hunks, the first header being consumed. -/
def readHunks (rest : List Text) (n : Nat) : EStateM.Result ReadError LineReader (List Hunk) :=
  match rest with
  | [] => .error (.diff n (.otherThanTargetHeader none)) ⟨[], n, false⟩
  | line :: rest =>
    if line.startsWith "+++ " then Hunk.readBlocks ⟨rest, n + 1, false⟩
    else .error (.diff (n + 1) (.otherThanTargetHeader (some line))) ⟨rest, n + 1, false⟩

/-- Reads the rest of a patch, `n` being the number of lines consumed so far. -/
def readHeader (stop : Text → Bool) (h : Header) (n : Nat) :
    List Text → EStateM.Result ReadError LineReader Patch
  | [] => .ok (h.toPatch [] false) ⟨[], n, true⟩
  | line :: rest =>
    if endsPatch stop line then .ok (h.toPatch [] false) ⟨line :: rest, n, true⟩
    else
      match h.step (n + 1) line with
      | .error e => .error e ⟨rest, n + 1, false⟩
      | .ok (.header h) => readHeader stop h (n + 1) rest
      | .ok .binaryNotice => .ok (h.toPatch [] true) ⟨rest, n + 1, false⟩
      | .ok .binaryPayload => .ok (h.toPatch [] true) (skipPayload stop (n + 1) rest)
      | .ok .fileHeader =>
        match readHunks rest (n + 1) with
        | .error e r => .error e r
        | .ok hunks r => .ok (h.toPatch hunks false) r

/-- Reads one patch. -/
def readOne (stop : Text → Bool) : Reading Patch := fun r =>
  match r.rest with
  | [] => .error (.diff (r.lineNumber + 1) .noPatchHeader) { r with looked := false }
  | line :: rest =>
    let n := r.lineNumber + 1
    let paths := line.drop patchHeader.length
    match Path.readPair paths with
    | .error e => .error (.quote e) ⟨rest, n, false⟩
    | .ok none => .error (.diff n (.malformedPatchHeader paths)) ⟨rest, n, false⟩
    | .ok (some (source, target)) =>
      readHeader stop { sourcePath := source, targetPath := target } n rest

theorem length_rest_skipPayload (stop : Text → Bool) (n : Nat) (ls : List Text) :
    (skipPayload stop n ls).rest.length ≤ ls.length := by
  fun_induction skipPayload stop n ls with
  | case1 => simp
  | case2 => simp
  | case3 n line rest h ih => simp; omega

theorem length_rest_of_readHunks {rest : List Text} {n : Nat} {hs : List Hunk} {r : LineReader}
    (h : readHunks rest n = .ok hs r) : r.rest.length ≤ rest.length := by
  unfold readHunks at h
  split at h
  · simp at h
  · split at h
    · have := length_rest_of_readBlocks h
      simp at this ⊢
      omega
    · simp at h

theorem length_rest_of_readHeader {stop : Text → Bool} {hd : Header} {n : Nat} {ls : List Text}
    {p : Patch} {r : LineReader} (h : readHeader stop hd n ls = .ok p r) :
    r.rest.length ≤ ls.length := by
  fun_induction readHeader stop hd n ls with
  | case1 => simp at h; simp [← h.2]
  | case2 => simp at h; simp [← h.2]
  | case3 => simp at h
  | case4 hd n line rest hs hd' hstep ih =>
    have := ih h
    simp
    omega
  | case5 => simp at h; simp [← h.2]
  | case6 hd n line rest =>
    simp at h
    have := length_rest_skipPayload stop (n + 1) rest
    simp [← h.2]
    omega
  | case7 => simp at h
  | case8 hd n line rest hs hstep hunks r' hr =>
    have := length_rest_of_readHunks hr
    simp at h
    simp [← h.2]
    omega

theorem length_rest_of_readOne {stop : Text → Bool} {r r' : LineReader} {p : Patch}
    (h : readOne stop r = .ok p r') : r'.rest.length < r.rest.length := by
  unfold readOne at h
  split at h
  · simp at h
  · rename_i line rest hr
    dsimp only at h
    split at h
    · simp at h
    · simp at h
    · have := length_rest_of_readHeader h
      simp [hr]
      omega

/-- Reads patches until the input ends or a line stops the diff; that line is not consumed. -/
def readExtended (stop : Text → Bool) (r : LineReader) :
    EStateM.Result ReadError LineReader (List Patch) :=
  match r.rest with
  | [] => .ok [] { r with looked := true }
  | line :: _ =>
    if stop line then .ok [] { r with looked := true }
    else if line.startsWith patchHeader then
      match _h : readOne stop r with
      | .error e r => .error e r
      | .ok p r' =>
        match readExtended stop r' with
        | .error e r => .error e r
        | .ok ps r => .ok (p :: ps) r
    else
      .error (.diff (r.lineNumber + 1) (.otherThanPatchHeader line)) { r with looked := true }
termination_by r.rest.length
decreasing_by exact length_rest_of_readOne _h

/-- No line stops the diff before the end of the input. -/
def toEnd : Text → Bool := fun _ => false

end Patch

end Dvcs
