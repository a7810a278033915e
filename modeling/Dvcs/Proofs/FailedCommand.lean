import Dvcs.Proofs.Git.History
import Dvcs.Proofs.Mercurial.Traversal

/-!
This module contains what is said of a command that fails after it has printed something. A full
walk through history reports the failure even if the output is garbled. The operations that read the
whole output of a command report garbled output instead.
-/

namespace Dvcs

/-- What the caller of an operation gets. -/
def Op.value {α : Type} : EStateM.Result Error World α → Except Error α
  | .ok a _ => .ok a
  | .error e _ => .error e

theorem Op.value_ofExcept {α : Type} (x : Except Error α) (w : World) :
    value (ofExcept x w) = x := by
  cases x <;> rfl

theorem Op.value_bind_pure {α β : Type} (p : Op α) (f : α → β) (w : World) :
    value ((p >>= fun a => pure (f a)) w) = (value (p w)).map f := by
  dsimp only [bind, EStateM.bind]
  cases p w <;> rfl

/-- The outcome of an operation that reads the output of a command before it looks at the status.
The command is not run because of the error `refusal`, if any, or it fails with the status
`failure`, if any. -/
inductive OutputFirst {α : Type} (refusal : Option Error) (failure : Option Int) :
    Except ReadError α → Except Error α → Prop
  | refused {read : Except ReadError α} {e : Error} (h : refusal = some e) :
    OutputFirst refusal failure read (.error e)
  | garbled (hruns : refusal = none) (e : ReadError) :
    OutputFirst refusal failure (.error e) (.error (.read e))
  | failed (hruns : refusal = none) (a : α) {outcome : Outcome}
    (h : failure = some outcome.status) :
    OutputFirst refusal failure (.ok a) (.error (.process outcome))
  | complete (hruns : refusal = none) (a : α) (h : failure = none) :
    OutputFirst refusal failure (.ok a) (.ok a)

/-- The status that a command fails with. -/
def Response.failure (response : Response) : Option Int :=
  if response.finalStatus = 0 then none else some response.finalStatus

/-- The patches in some lines, or why these cannot be read. -/
def Patch.ofLines (ls : List Text) : Except ReadError (List Patch) :=
  match readExtended toEnd (.ofLines ls) with
  | .ok patches _ => .ok patches
  | .error e _ => .error e

/-- The records in some lines, or why these cannot be read. -/
def Metadata.ofLines (ls : List Text) : Except ReadError (List Metadata) :=
  match (readAll (.ofLines ls)).error with
  | some e => .error e
  | none => .ok (readAll (.ofLines ls)).items

theorem OutputFirst.map {α β : Type} {refusal : Option Error} {failure : Option Int}
    {read : Except ReadError α} {result : Except Error α}
    (h : OutputFirst refusal failure read result) (f : α → β) :
    OutputFirst refusal failure (read.map f) (result.map f) := by
  cases h with
  | refused h => exact .refused h
  | garbled hruns e => exact .garbled hruns e
  | failed hruns a h => exact .failed hruns (f a) h
  | complete hruns a h => exact .complete hruns (f a) h

theorem OutputFirst.eq_of_error {α : Type} {failure : Option Int} {e : ReadError}
    {result : Except Error α} (h : OutputFirst none failure (.error e) result) :
    result = .error (.read e) := by
  cases h with
  | refused h => cases h
  | garbled => rfl

namespace Mercurial

open Handle

/-- What is read of a whole output, without the reader that is left behind. -/
def resultOf {α : Type} (read : LineReader → Except (ReadError × LineReader) (α × LineReader))
    (ls : List Text) : Except ReadError α :=
  match read (.ofLines ls) with
  | .error (e, _) => .error e
  | .ok (a, _) => .ok a

theorem resultOf_allRecords (ls : List Text) : resultOf allRecords ls = Metadata.ofLines ls := by
  unfold resultOf allRecords Metadata.ofLines
  dsimp only
  cases (Metadata.readAll (.ofLines ls)).error <;> rfl

theorem resultOf_allPatches (ls : List Text) : resultOf allPatches ls = Patch.ofLines ls := by
  unfold resultOf allPatches Patch.ofLines
  cases Patch.readExtended Patch.toEnd (.ofLines ls) <;> rfl

theorem readThrough_start {α : Type}
    (read : LineReader → Except (ReadError × LineReader) (α × LineReader)) (command : List Text)
    (response : Response) :
    OutputFirst none response.failure (resultOf read response.printed)
      (readThrough read (start .stream command response)).1 := by
  have hrunning := running_start .stream command response
  unfold readThrough resultOf
  rw [lines_start]
  cases read (.ofLines response.printed) with
  | error garbled =>
    obtain ⟨e, reader⟩ := garbled
    exact .garbled rfl e
  | ok good =>
    obtain ⟨a, reader⟩ := good
    obtain ⟨hstatus, _⟩ := (hrunning.skip reader.drawn).wait
    unfold Handle.check Response.failure
    dsimp only
    rw [← hstatus]
    split
    . next hzero => exact .complete rfl a rfl
    . next hne => exact .failed rfl a rfl

/-- A command that loads the extension from `path`. -/
def extensionCommand (r : WorkingCopy) (arguments : List Text) (path : Path) : List Text :=
  r.command :: "--config" :: ("extensions.repokit_dump=" ++ path.toText) :: arguments

variable {r : WorkingCopy} {q : Query} {w : World}

theorem stream_eq {α : Type} (hw : w.TakesFiles r.temporary) (arguments : List Text)
    (use : Handle → α × Handle) :
    ∃ command w', stream r arguments use w =
      match refusal? r arguments with
      | none => .ok (use (start .stream command (w.responses.headD {}))).1 w'
      | some e => .error e w' := by
  have hsuffix : Sym.char '\x00' ∉ Text.ofString ".py" := by decide
  obtain ⟨path, w₁, hlegal, hholds, hrun⟩ := Op.withTempFile_eq hw hsuffix extensionSource
    (fun path => Op.command .stream r.root toolEnvironment (extensionCommand r arguments path) use)
    fun path => Op.sameDirectories_command .stream r.root toolEnvironment
      (extensionCommand r arguments path) use
  have hwords : Op.isPassable r.root (extensionCommand r arguments path) =
      isPassable r arguments := isPassable_loading r hlegal arguments
  have hresponses := hholds.responses_eq
  unfold refusal?
  cases hpassable : isPassable r arguments with
  | false =>
    have hcommand := Op.command_of_not_isPassable (hwords.trans hpassable) .stream toolEnvironment
      use w₁
    rw [hcommand] at hrun
    exact ⟨extensionCommand r arguments path, w₁.withoutTemp path, hrun⟩
  | true =>
    obtain ⟨w₂, invocation, hcommand, _⟩ := Op.command_eq (hwords.trans hpassable) .stream
      toolEnvironment use w₁
    rw [hresponses] at hcommand
    rw [hcommand] at hrun
    exact ⟨extensionCommand r arguments path, w₂.withoutTemp path, hrun⟩

/-- The result of a command whose whole output is read. -/
theorem stream_outputFirst {α : Type} (hw : w.TakesFiles r.temporary) (arguments : List Text)
    (read : LineReader → Except (ReadError × LineReader) (α × LineReader)) :
    OutputFirst (refusal? r arguments) (w.responses.headD {}).failure
      (resultOf read (w.responses.headD {}).printed)
      (Op.value ((stream r arguments (readThrough read) >>= Op.ofExcept) w)) := by
  obtain ⟨command, w', hstream⟩ := stream_eq hw arguments (readThrough read)
  cases hrefusal : refusal? r arguments with
  | some e =>
    rw [hrefusal] at hstream
    rw [Op.bind_of_error hstream]
    exact .refused rfl
  | none =>
    rw [hrefusal] at hstream
    rw [Op.bind_of_ok hstream, Op.value_ofExcept]
    exact readThrough_start read command (w.responses.headD {})

theorem metadata_outputFirst (hq : q.isEmpty = false) (hw : w.TakesFiles r.temporary) :
    OutputFirst (refusal? r (selection q)) (w.responses.headD {}).failure
      (Metadata.ofLines (w.responses.headD {}).printed) (Op.value (metadata r q w)) := by
  have hread := stream_outputFirst hw ("repokit-log" :: "--no-diffs" :: selection q) allRecords
  have hrefusal : refusal? r ("repokit-log" :: "--no-diffs" :: selection q) =
      refusal? r (selection q) := by
    unfold refusal?
    rw [isPassable_cons r (by decide), isPassable_cons r (by decide)]
  rw [resultOf_allRecords, hrefusal] at hread
  unfold metadata
  rw [if_neg (by simp [hq])]
  exact hread

/-- The names of commits do not decide whether hg can be run. -/
theorem refusal?_diff (source : Hash) (target : Option Hash) :
    refusal? r ("repokit-diff" :: "--" :: source.hex :: target.toList.map Hash.hex) =
      refusal? r [] := by
  have hhex (hash : Hash) : (!hash.hex.contains (.char '\x00')) = true := by
    have hnull : Sym.char '\x00' ∉ hash.hex := fun hmem =>
      absurd (Hash.isHexDigit_of_mem hmem) (by decide)
    simpa using hnull
  unfold refusal?
  rw [isPassable_cons r (by decide), isPassable_cons r (by decide), isPassable_cons r (hhex source)]
  cases target with
  | none => rfl
  | some target =>
    rw [Option.toList_some, List.map_cons, List.map_nil, isPassable_cons r (hhex target)]

theorem diff_outputFirst (hw : w.TakesFiles r.temporary) (source : Hash) (target : Option Hash) :
    OutputFirst (refusal? r []) (w.responses.headD {}).failure
      ((Patch.ofLines (w.responses.headD {}).printed).map (⟨source, target, ·⟩))
      (Op.value (diff r source target w)) := by
  have hread := stream_outputFirst hw
    ("repokit-diff" :: "--" :: source.hex :: target.toList.map Hash.hex) allPatches
  rw [resultOf_allPatches, refusal?_diff] at hread
  have hdiff := hread.map fun patches => (⟨source, target, patches⟩ : Diff)
  rw [← Op.value_bind_pure, bind_assoc] at hdiff
  exact hdiff

theorem commits_ends (hq : q.isEmpty = false) (hw : w.TakesFiles r.temporary)
    (hlocated : ∀ e ∈ (Commit.readAll (.ofLines (w.responses.headD {}).printed)).error,
      e.line?.isSome = true) :
    match refusal? r (selection q) with
    | none => ∃ t w', commits r q none w = .ok t w' ∧
      Ends (w.responses.headD {}) (Commit.readAll (.ofLines (w.responses.headD {}).printed)).items
        (Commit.readAll (.ofLines (w.responses.headD {}).printed)).error none t
    | some e => ∃ w', commits r q none w = .error e w' := by
  obtain ⟨command, w', hstream⟩ := stream_eq hw ("repokit-log" :: selection q) (walk none)
  have hfound := Reading.yields_many Commit.read_consumes (.ofLines (w.responses.headD {}).printed)
  have htake : none ≠ some 0 := nofun
  have hends := (walk_start hfound hlocated htake command).1
  have hcommits : commits r q none w = stream r ("repokit-log" :: selection q) (walk none) w := by
    unfold commits
    rw [if_neg htake, if_neg (by simp [hq])]
  have hrefusal : refusal? r ("repokit-log" :: selection q) = refusal? r (selection q) := by
    unfold refusal?
    rw [isPassable_cons r (by decide)]
  rw [hrefusal] at hstream
  cases hrefused : refusal? r (selection q) with
  | some e =>
    rw [hrefused] at hstream
    exact ⟨w', hcommits.trans hstream⟩
  | none =>
    rw [hrefused] at hstream
    exact ⟨_, w', hcommits.trans hstream, hends⟩

end Mercurial

namespace Git

/-- The error of a command that cannot be started. -/
def Answer.refusal? : Answer → Option Error
  | .unstarted message => some (.unstarted message)
  | _ => none

/-- The status that a command fails with. -/
def Answer.failure? : Answer → Option Int
  | .failure _ report => some report.ending.status
  | _ => none

theorem patchesOf_eq (ls : List Text) : patchesOf ls = (Patch.ofLines ls).mapError .read := by
  unfold patchesOf Patch.ofLines
  cases Patch.readExtended Patch.toEnd (.ofLines ls) <;> rfl

theorem diff_outputFirst {r : WorkingCopy} {w : World}
    (hopen : w.git.openRoots.contains r.root = true ∨ w.git.opens = true) (source : Hash)
    (target : Option Hash) :
    OutputFirst (upcoming w).refusal? (upcoming w).failure?
      ((Patch.ofLines (Handle.linesOf (upcoming w).stdout)).map (⟨source, target, ·⟩))
      (Op.value (diff r source target w)) := by
  obtain ⟨w₁, hensure, _, hgit⟩ := ensureOpen_eq hopen
  have hanswers : upcoming w₁ = upcoming w := by rw [upcoming, upcoming, hgit]
  have hanswer : nextAnswer w₁ = .ok (upcoming w₁)
      { w₁ with git := { w₁.git with answers := w₁.git.answers.tail } } := rfl
  unfold diff
  rw [Op.bind_of_ok hensure, Op.bind_of_ok hanswer, hanswers]
  generalize upcoming w = answer
  have hrecord (e : Event) (w : World) : record e w = .ok () _ := rfl
  rw [Op.bind_of_ok (hrecord _ _)]
  cases answer with
  | unstarted message => exact .refused rfl
  | output stdout =>
    simp only [patchesOf_eq, Answer.stdout, Answer.failure?]
    cases Patch.ofLines (Handle.linesOf stdout) with
    | error e => exact .garbled rfl e
    | ok patches => exact .complete rfl _ rfl
  | failure stdout report =>
    simp only [patchesOf_eq, Answer.stdout, Answer.failure?]
    cases Patch.ofLines (Handle.linesOf stdout) with
    | error e => exact .garbled rfl e
    | ok patches => exact .failed rfl _ rfl

end Git

/-- What a caller hears of a command, whatever it prints and whether it fails or not: a full walk
reports the failure of the command, and the operations that read the whole output report what is
wrong with the output first. A command that is not run at all has an error of its own. -/
theorem failedCommand_outcome (hg git : WorkingCopy) {q : Query} {w : World}
    (hq : q.isEmpty = false) (hw : w.TakesFiles hg.temporary) (source : Hash)
    (target : Option Hash) :
    ((∀ e ∈ (Commit.readAll (.ofLines (w.responses.headD {}).printed)).error,
        e.line?.isSome = true) →
      match Mercurial.refusal? hg (Mercurial.selection q) with
      | none => ∃ t w', Mercurial.commits hg q none w = .ok t w' ∧
        Mercurial.Ends (w.responses.headD {})
          (Commit.readAll (.ofLines (w.responses.headD {}).printed)).items
          (Commit.readAll (.ofLines (w.responses.headD {}).printed)).error none t
      | some e => ∃ w', Mercurial.commits hg q none w = .error e w') ∧
    OutputFirst (Mercurial.refusal? hg (Mercurial.selection q)) (w.responses.headD {}).failure
      (Metadata.ofLines (w.responses.headD {}).printed) (Op.value (Mercurial.metadata hg q w)) ∧
    OutputFirst (Mercurial.refusal? hg []) (w.responses.headD {}).failure
      ((Patch.ofLines (w.responses.headD {}).printed).map (⟨source, target, ·⟩))
      (Op.value (Mercurial.diff hg source target w)) ∧
    (w.git.openRoots.contains git.root = true ∨ w.git.opens = true →
      OutputFirst (Git.upcoming w).refusal? (Git.upcoming w).failure?
        ((Patch.ofLines (Handle.linesOf (Git.upcoming w).stdout)).map (⟨source, target, ·⟩))
        (Op.value (Git.diff git source target w))) :=
  ⟨Mercurial.commits_ends hq hw, Mercurial.metadata_outputFirst hq hw,
    Mercurial.diff_outputFirst hw source target,
    fun hopen => Git.diff_outputFirst hopen source target⟩

/-- A line that neither a reader of records nor one of diffs can make anything of. -/
def garbage : Text := "garbage"

/-- A world where the next command of either tool prints garbage and fails. -/
def garbledWorld : World where
  files := ⟨[(["tmp"], .directory)]⟩
  responses := [{ stdout := Text.encode (garbage ++ "\n"), status := 255 }]
  git := { answers := [.failure (Text.encode (garbage ++ "\n")) { ending := .code 128 }] }

theorem linesOf_garbage : Handle.linesOf (Text.encode (garbage ++ "\n")) = [garbage] := by
  have hended : Text.encode (garbage ++ "\n") = Handle.ended ([garbage].map Text.encode) := by
    decide
  have hline : Text.IsLine garbage := Text.Plain.isLine (by decide)
  rw [hended]
  exact Handle.linesOf_ended_encode (List.forall_mem_singleton.2 hline)

theorem records_garbage :
    Metadata.ofLines [garbage] = .error (.record 1 (.otherThanSentinel garbage)) := by
  have hread : Metadata.readAll (.ofLines [garbage]) =
      { items := []
        error := some (.record 1 (.otherThanSentinel garbage))
        reader := ⟨[], 1, false⟩ } :=
    Reading.many_of_error Metadata.read_consumes (List.cons_ne_nil _ _) rfl
  rw [Metadata.ofLines, hread]

theorem commits_garbage : Commit.readAll (.ofLines [garbage]) =
    { items := []
      error := some (.record 1 (.otherThanSentinel garbage))
      reader := ⟨[], 1, false⟩ } :=
  Reading.many_of_error Commit.read_consumes (List.cons_ne_nil _ _) rfl

theorem patches_garbage :
    Patch.ofLines [garbage] = .error (.diff 1 (.otherThanPatchHeader garbage)) := by
  rw [Patch.ofLines, Patch.readExtended_eq]
  rfl

theorem takesFiles_garbledWorld : garbledWorld.TakesFiles none := ⟨by decide, by decide⟩

theorem printed_garbledWorld : (garbledWorld.responses.headD {}).printed = [garbage] :=
  linesOf_garbage

theorem located_garbage :
    ∀ e ∈ (Commit.readAll (.ofLines (garbledWorld.responses.headD {}).printed)).error,
      e.line?.isSome = true := by
  rw [printed_garbledWorld, commits_garbage]
  rintro e ⟨⟩
  rfl

/-- The working copies of the two tools. -/
def sampleCopy (backend : Backend) (command : Text) : WorkingCopy where
  backend := backend
  root := ⟨"/", ["w"]⟩
  command := command

/-- A caller of the operations that read the whole output does not learn that the command failed,
while a walk through history tells it. -/
theorem failedCommand_garbled :
    Op.value (Mercurial.metadata (sampleCopy .mercurial "hg") {} garbledWorld) =
      .error (.read (.record 1 (.otherThanSentinel garbage))) ∧
    Op.value (Mercurial.diff (sampleCopy .mercurial "hg") .null none garbledWorld) =
      .error (.read (.diff 1 (.otherThanPatchHeader garbage))) ∧
    Op.value (Git.diff (sampleCopy .git "git") .null none garbledWorld) =
      .error (.read (.diff 1 (.otherThanPatchHeader garbage))) ∧
    ∃ t w' outcome,
      Mercurial.commits (sampleCopy .mercurial "hg") {} none garbledWorld = .ok t w' ∧
        t.error = some (.process outcome) ∧ outcome.status = 255 := by
  refine ⟨?_, ?_, ?_, ?_⟩
  . have hvalue := Mercurial.metadata_outputFirst (r := sampleCopy .mercurial "hg") (q := {}) rfl
      takesFiles_garbledWorld
    rw [printed_garbledWorld, records_garbage] at hvalue
    exact hvalue.eq_of_error
  . have hvalue := Mercurial.diff_outputFirst (r := sampleCopy .mercurial "hg")
      takesFiles_garbledWorld .null none
    rw [printed_garbledWorld, patches_garbage] at hvalue
    exact hvalue.eq_of_error
  . have hvalue := Git.diff_outputFirst (r := sampleCopy .git "git") (w := garbledWorld) (.inr rfl)
      .null none
    have hlines : Handle.linesOf (Git.upcoming garbledWorld).stdout = [garbage] := linesOf_garbage
    rw [hlines, patches_garbage] at hvalue
    exact hvalue.eq_of_error
  . obtain ⟨t, w', hrun, hends⟩ := Mercurial.commits_ends (r := sampleCopy .mercurial "hg")
      (q := {}) rfl takesFiles_garbledWorld located_garbage
    cases hends with
    | closed htake => contradiction
    | failed htake hstatus hfailed => exact ⟨_, w', _, hrun, rfl, hstatus⟩
    | garbled htake hstatus => contradiction
    | complete htake hstatus => contradiction

theorem failedCommand_outcome_garbled :
    (∃ t w', Mercurial.commits (sampleCopy .mercurial "hg") {} none garbledWorld = .ok t w' ∧
      Mercurial.Ends (garbledWorld.responses.headD {}) []
        (some (.record 1 (.otherThanSentinel garbage))) none t) ∧
    OutputFirst none (some 255) (.error (.record 1 (.otherThanSentinel garbage)))
      (Op.value (Mercurial.metadata (sampleCopy .mercurial "hg") {} garbledWorld)) ∧
    OutputFirst none (some 255) (.error (.diff 1 (.otherThanPatchHeader garbage)))
      (Op.value (Mercurial.diff (sampleCopy .mercurial "hg") .null none garbledWorld)) ∧
    OutputFirst none (some 128) (.error (.diff 1 (.otherThanPatchHeader garbage)))
      (Op.value (Git.diff (sampleCopy .git "git") .null none garbledWorld)) := by
  obtain ⟨hwalk, hmetadata, hdiff, hgit⟩ := failedCommand_outcome (sampleCopy .mercurial "hg")
    (sampleCopy .git "git") (q := {}) rfl takesFiles_garbledWorld .null none
  have hlines : Handle.linesOf (Git.upcoming garbledWorld).stdout = [garbage] := linesOf_garbage
  have hgit := hgit (.inr rfl)
  rw [hlines, patches_garbage] at hgit
  rw [printed_garbledWorld, records_garbage] at hmetadata
  rw [printed_garbledWorld, patches_garbage] at hdiff
  have hwalk := hwalk located_garbage
  rw [printed_garbledWorld, commits_garbage] at hwalk
  exact ⟨hwalk, hmetadata, hdiff, hgit⟩

end Dvcs
