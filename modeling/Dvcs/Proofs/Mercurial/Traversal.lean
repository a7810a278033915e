import Dvcs.Proofs.LineReader
import Dvcs.Proofs.Mercurial.Command
import Dvcs.Proofs.Mercurial.Log
import Dvcs.Proofs.Process.Ending

/-!
This module contains the ends of walks through history. However a walk ends, at the end of the
output, at output that cannot be read, at a failed command or because its consumer closes it, the
commits in front of the end have been shown, the command has been waited for once and the extension
is gone.
-/

namespace Dvcs

namespace Mercurial

open Handle

/-- How a walk ends that could show the commits `found` and reads no further because of `ending`. A
failed command counts before output that cannot be read. -/
inductive Ends (response : Response) (found : List Commit) (ending : Option ReadError)
    (take : Option Nat) : Traversal → Prop
  | closed {k : Nat} (htake : take = some k) (hk : k ≤ found.length) :
    Ends response found ending take { commits := found.take k, closed := true }
  | failed {outcome : Outcome} (htake : ∀ k ∈ take, found.length < k)
    (hstatus : outcome.status = response.finalStatus) (hfailed : response.finalStatus ≠ 0) :
    Ends response found ending take { commits := found, error := some (.process outcome) }
  | garbled {e : ReadError} (htake : ∀ k ∈ take, found.length < k)
    (hstatus : response.finalStatus = 0) (hending : ending = some e) :
    Ends response found ending take { commits := found, error := some (.read e) }
  | complete (htake : ∀ k ∈ take, found.length < k) (hstatus : response.finalStatus = 0)
    (hending : ending = none) : Ends response found ending take { commits := found }

theorem starts_of_yields {response : Response} {found : List Commit} {ending : Option ReadError}
    (h : Commit.read.Yields (.ofLines response.printed) found ending) (hfound : found ≠ []) :
    response.starts = true := by
  cases hstarts : response.starts with
  | true => rfl
  | false =>
    have hprinted : response.printed = [] := by simp [Response.printed, hstarts]
    rw [hprinted] at h
    cases h with
    | done hr => contradiction
    | failed hr hp => contradiction
    | item hr hp hmore => exact absurd rfl hr

theorem endGarbled_eq {h : Handle} {response : Response} (hrunning : h.Running response)
    {e : ReadError} (he : e.line?.isSome = true) :
    (if response.finalStatus = 0 then (endGarbled e h).1 = .read e
      else ∃ outcome, (endGarbled e h).1 = .process outcome ∧
        outcome.status = response.finalStatus) ∧
    (endGarbled e h).2.Ended response 0 := by
  obtain ⟨hstatus, hended⟩ := hrunning.wait
  refine ⟨?_, hended⟩
  unfold endGarbled Outcome.succeeded
  dsimp only
  rw [hstatus, he]
  split
  . next hzero => simp [hzero]
  . next hne =>
    refine ⟨h.wait.1, ?_, hstatus⟩
    simp [hne]

theorem check_eq {h : Handle} {response : Response} (hrunning : h.Running response) :
    (if response.finalStatus = 0 then failure? h.check.1 = none
      else ∃ outcome, failure? h.check.1 = some (.process outcome) ∧
        outcome.status = response.finalStatus) ∧
    h.check.2.Ended response 0 := by
  obtain ⟨hstatus, hended⟩ := hrunning.wait
  refine ⟨?_, hended⟩
  unfold Handle.check
  dsimp only
  rw [hstatus]
  split
  . rfl
  . exact ⟨h.wait.1, rfl, hstatus⟩

theorem walk_start {response : Response} {found : List Commit} {ending : Option ReadError}
    (hfound : Commit.read.Yields (.ofLines response.printed) found ending)
    (hending : ∀ e ∈ ending, e.line?.isSome = true) {take : Option Nat} (htake : take ≠ some 0)
    (command : List Text) :
    Ends response found ending take (walk take (start .stream command response)).1 ∧
      (walk take (start .stream command response)).2.Ended response
        ((walk take (start .stream command response)).1.closed && !response.exited).toNat := by
  have hrunning := running_start .stream command response
  obtain ⟨hitems, herror⟩ := hfound.many_eq Commit.read_consumes
  unfold walk
  rw [lines_start]
  change (Commit.readAll (.ofLines response.printed)).items = found at hitems
  change (Commit.readAll (.ofLines response.printed)).error = ending at herror
  generalize Commit.readAll (.ofLines response.printed) = all at hitems herror ⊢
  dsimp only
  rw [hitems, herror]
  split
  . next hcloses =>
    obtain ⟨k, rfl, hk⟩ : ∃ k, take = some k ∧ k ≤ found.length := by
      cases take with
      | none => contradiction
      | some k => exact ⟨k, rfl, by simpa using hcloses⟩
    have hne : found ≠ [] := by
      rintro rfl
      exact htake (congrArg some (Nat.le_zero.1 hk))
    exact ⟨.closed rfl hk, hrunning.abort (starts_of_yields hfound hne)⟩
  . next hopen =>
    have htake' : ∀ k ∈ take, found.length < k := by
      rintro k rfl
      simpa using hopen
    split
    . next e =>
      obtain ⟨herror', hended⟩ := endGarbled_eq (hrunning.skip all.reader.drawn)
        (hending e rfl)
      refine ⟨?_, hended⟩
      dsimp only
      split at herror'
      . next hzero =>
        rw [herror']
        exact .garbled htake' hzero rfl
      . next hfailed =>
        obtain ⟨outcome, heq, hstatus⟩ := herror'
        rw [heq]
        exact .failed htake' hstatus hfailed
    . obtain ⟨hcheck, hended⟩ := check_eq (hrunning.skip all.reader.drawn)
      refine ⟨?_, hended⟩
      dsimp only
      split at hcheck
      . next hzero =>
        rw [hcheck]
        exact .complete htake' hzero rfl
      . next hfailed =>
        obtain ⟨outcome, heq, hstatus⟩ := hcheck
        rw [heq]
        exact .failed htake' hstatus hfailed

/-- The command of a walk, with the extension at `path`. -/
def walkCommand (r : WorkingCopy) (q : Query) (path : Path) : List Text :=
  r.command :: "--config" :: ("extensions.repokit_dump=" ++ path.toText) :: "repokit-log" ::
    selection q

theorem commits_eq_withTempFile {r : WorkingCopy} {q : Query} {take : Option Nat}
    (htake : take ≠ some 0) (hq : q.isEmpty = false) (w : World) :
    commits r q take w =
      Op.withTempFile r.temporary ".py" extensionSource
        (fun path => Op.command .stream r.root toolEnvironment (walkCommand r q path) (walk take))
        w := by
  unfold commits
  simp only [htake, hq]
  rfl

/-- What a finished walk leaves behind: one more command in the record, which was told to load the
extension from `path`, and nothing there. -/
structure Leaves (r : WorkingCopy) (q : Query) (w : World) (t : Traversal) (w' : World)
    (path : Path) (invocation : Invocation) : Prop where
  log : w'.log = .command invocation :: w.log
  responses : w'.responses = w.responses.tail
  command : invocation.command = walkCommand r q path
  terminated : invocation.terminated = (t.closed && !(w.responses.headD {}).exited).toNat
  reaped : invocation.reaped = (w.responses.headD {}).waits
  fresh : w.files.has path = false
  gone : w'.files.has path = false
  living : w'.living = w.living

/-- What a walk leaves behind whose command the system cannot be given. -/
structure LeavesNothing (w w' : World) (path : Path) : Prop where
  log : w'.log = w.log
  responses : w'.responses = w.responses
  fresh : w.files.has path = false
  gone : w'.files.has path = false
  living : w'.living = w.living

theorem leaves_of_runs {r : WorkingCopy} {q : Query} {w w₁ w₂ : World} {path : Path} {t : Traversal}
    {handle : Handle} {invocation : Invocation} (hholds : w.Holds path extensionSource w₁)
    (hruns : Op.Runs (walkCommand r q path) handle w₁ w₂ invocation)
    (hended : handle.Ended (w.responses.headD {})
      (t.closed && !(w.responses.headD {}).exited).toNat) :
    Leaves r q w t (w₂.withoutTemp path) path invocation where
  log := by rw [← hholds.log_eq]; exact hruns.log
  responses := by rw [← hholds.responses_eq]; exact hruns.responses
  command := hruns.command
  terminated := by rw [hruns.terminated]; exact hended.terminated
  reaped := by rw [hruns.reaped]; exact hended.reaped
  fresh := hholds.fresh
  gone := hholds.free w₂ hruns.same
  living := hholds.living_withoutTemp hruns.living

theorem leavesNothing_of_holds {w w₁ : World} {path : Path} {content : Bytes}
    (hholds : w.Holds path content w₁) : LeavesNothing w (w₁.withoutTemp path) path where
  log := hholds.log_eq
  responses := hholds.responses_eq
  fresh := hholds.fresh
  gone := hholds.free w₁ (.refl _)
  living := hholds.living_withoutTemp rfl

/-- A walk that is not empty runs its command and shows what it prints. Only if the selection, the
name of the tool or the directory holds the null character, there is no command. -/
theorem commits_outcome {r : WorkingCopy} {q : Query} {take : Option Nat} {w : World}
    {found : List Commit} {ending : Option ReadError} (htake : take ≠ some 0)
    (hw : w.TakesFiles r.temporary)
    (hfound : Commit.read.Yields (.ofLines (w.responses.headD {}).printed) found ending)
    (hending : ∀ e ∈ ending, e.line?.isSome = true) :
    if q.isEmpty then commits r q take w = .ok { commits := [] } w
    else if isPassable r (selection q) then
      ∃ t w' path invocation, commits r q take w = .ok t w' ∧
        Ends (w.responses.headD {}) found ending take t ∧ Leaves r q w t w' path invocation
    else ∃ w' path, commits r q take w = .error .nullCharacter w' ∧ LeavesNothing w w' path := by
  split
  . next hq =>
    rw [commits_of_isEmpty hq]
    simp [htake]
  . next hq =>
    rw [Bool.not_eq_true] at hq
    have hsuffix : Sym.char '\x00' ∉ Text.ofString ".py" := by decide
    obtain ⟨path, w₁, hlegal, hholds, hrun⟩ := Op.withTempFile_eq hw hsuffix extensionSource
      (fun path => Op.command .stream r.root toolEnvironment (walkCommand r q path) (walk take))
      fun path => Op.sameDirectories_command .stream r.root toolEnvironment (walkCommand r q path)
        (walk take)
    rw [← commits_eq_withTempFile htake hq w] at hrun
    have hwords : Op.isPassable r.root (walkCommand r q path) = isPassable r (selection q) :=
      (isPassable_loading r hlegal _).trans (isPassable_cons r (by decide) _)
    split
    . next hpassable =>
      obtain ⟨w₂, invocation, hcommand, hruns⟩ := Op.command_eq (hwords.trans hpassable) .stream
        toolEnvironment (walk take) w₁
      rw [hholds.responses_eq] at hcommand hruns
      rw [hcommand] at hrun
      obtain ⟨hends, hended⟩ := walk_start hfound hending htake (walkCommand r q path)
      exact ⟨_, _, path, invocation, hrun, hends, leaves_of_runs hholds hruns hended⟩
    . next hpassable =>
      rw [Bool.not_eq_true] at hpassable
      have hcommand := Op.command_of_not_isPassable (hwords.trans hpassable) .stream toolEnvironment
        (walk take) w₁
      rw [hcommand] at hrun
      exact ⟨_, path, hrun, leavesNothing_of_holds hholds⟩

/-- A command that goes on after one commit with a broken record, and would fail. -/
def brokenResponse : Response where
  stdout := ended ((Commit.awkward.encode ++ [Metadata.sentinel, "zzz"]).map Text.encode)
  status := 255

/-- A world with a place for temporary files, where a command breaks off. -/
def brokenWorld : World where
  files := ⟨[(["tmp"], .directory)]⟩
  responses := [brokenResponse]

theorem yields_brokenResponse :
    Commit.read.Yields (.ofLines brokenResponse.printed) [Commit.awkward]
      (some (.record 21 (.invalidHash "zzz"))) := by
  have hplain : ∀ line ∈ Commit.awkward.encode ++ [Metadata.sentinel, "zzz"], Text.Plain line := by
    decide +kernel
  have hprinted : brokenResponse.printed = Commit.awkward.encode ++ [Metadata.sentinel, "zzz"] :=
    linesOf_ended_encode fun line hline => (hplain line hline).isLine
  rw [hprinted]
  have hmore : Commit.AtFrame [Metadata.sentinel, "zzz"] := by
    rintro line ⟨⟩
    rfl
  have hshows : ∀ d ∈ Commit.awkward.parentDiffs, Commit.Shows Diff.lines d :=
    fun d hd => Commit.shows_lines (Commit.read_diffs_awkward d hd)
  obtain ⟨looked, hread⟩ := Commit.read_encodeWith Commit.framed_awkward hshows hmore 0 false
  exact .item nofun hread (.failed nofun rfl)

theorem commits_outcome_broken :
    ∃ t w' path invocation,
      commits ⟨.mercurial, ⟨"/", ["w"]⟩, "hg", none⟩ { limit := some 5 } (some 1) brokenWorld =
        .ok t w' ∧
      Ends brokenResponse [Commit.awkward] (some (.record 21 (.invalidHash "zzz"))) (some 1) t ∧
      Leaves ⟨.mercurial, ⟨"/", ["w"]⟩, "hg", none⟩ { limit := some 5 } brokenWorld t w' path
        invocation := by
  have houtcome := @commits_outcome ⟨.mercurial, ⟨"/", ["w"]⟩, "hg", none⟩ { limit := some 5 }
    (some 1) brokenWorld _ _ (by decide) ⟨by decide, by decide⟩ yields_brokenResponse
    (by simp [ReadError.line?])
  rwa [if_neg (by decide), if_pos (by decide)] at houtcome

end Mercurial

end Dvcs
