import Dvcs.Proofs.Git.Clean
import Dvcs.Proofs.Mercurial.Clean

/-!
This module contains what both tools have in common in the cleaning of a working directory: no step
is left out because a command has failed or a file could not be deleted, and no failure but those of
the first two steps is lost. Errors of another kind are not caught. With Mercurial that is a name
with the null character, with git a command that cannot be started; they leave out what is behind
them.
-/

namespace Dvcs

open Mercurial (Finishes)
open Git (Exchange Exchanges Requests)

/-- What cleaning does and gives, however the commands answer and whatever comes of the deletions.
With `Mercurial.Cleans.all` and `Git.Cleans.all` every step is taken, and the cleaning fails with
the failures of all steps but the first two. -/
theorem clean_takes_all_steps (r : WorkingCopy) (w : World) :
    (∃ acts outcome w', Mercurial.Cleans r acts outcome ∧ w.Acts acts w' ∧
      w.Passes (acts.filterMap Act.command?) w' ∧
      (acts.filterMap Act.command?).map Step.arguments <+: Mercurial.cleaning ∧
      (outcome.isOk = true →
        (acts.filterMap Act.command?).map Step.arguments = Mercurial.cleaning) ∧
      w'.deletions = (acts.filterMap Act.deletion?).reverse ++ w.deletions ∧
      Finishes outcome w' (Mercurial.clean r w)) ∧
    (w.git.openRoots.contains r.root = true ∨ w.git.opens = true →
      ∃ w₁ exchanges w', Git.ensureOpen r w = .ok () w₁ ∧ Exchanges w₁ exchanges w' ∧
        Requests w₁ (exchanges.map (·.arguments)) w' ∧
        Git.Cleans (Git.cleaning (w.git.head.bind Hash.ofText?).isSome) exchanges w'
          (Git.clean r w)) := by
  constructor
  . obtain ⟨acts, outcome, w', hcleans, hacts, hresult⟩ := Mercurial.exists_cleans r w
    exact ⟨acts, outcome, w', hcleans, hacts, hacts.passes, hcleans.arguments.1,
      hcleans.arguments.2, hacts.deletions, hresult⟩
  . intro hrepository
    obtain ⟨w₁, exchanges, w', hopen, hexchanges, hcleans⟩ := Git.exists_cleans hrepository
    exact ⟨w₁, exchanges, w', hopen, hexchanges, hexchanges.log, hcleans⟩

/-- A working copy in which every step meets with some trouble. -/
def troubledCopy : WorkingCopy where
  backend := .mercurial
  root := ⟨"/", ["w"]⟩
  command := "hg"

/-- The second file cannot be deleted, one list is refused, and some commands cannot be started. -/
def troubledWorld : World where
  files := ⟨[(["w"], .directory), (["w", "a"], .file [])]⟩
  responses := [{ status := 255 }, { startError := some 2 }, { stdout := Text.encode "a\nb\nc\n" },
    { status := 1 }, { startError := some 13 }]
  refusals := [none, some 13]
  git := { answers := [.failure [] {}, .failure [] {}, .failure [] { ending := .code 128 }] }

/-- The failures that are reported of the cleaning. -/
def troubles : List StepFailure := [
  .system ⟨13, some "/w/b"⟩,
  .process { command := ["hg", "status", "--unknown", "--no-status"], status := 1 },
  .process {
    command := ["hg", "revert", "--no-backup", "--all"]
    status := Outcome.notStarted
    exception := some ⟨13, some "hg"⟩ }]

theorem clean_takes_all_steps_troubledWorld :
    (∃ acts outcome w', Mercurial.Cleans troubledCopy acts outcome ∧ troubledWorld.Acts acts w' ∧
      Finishes outcome w' (Mercurial.clean troubledCopy troubledWorld)) ∧
    (∃ w₁ exchanges w', Exchanges w₁ exchanges w' ∧
      Git.Cleans (Git.cleaning false) exchanges w' (Git.clean troubledCopy troubledWorld)) ∧
    (Op.perform (Mercurial.clean troubledCopy) troubledWorld).1 =
      .error (.refusal (.cleanFailed troubles (.system ⟨13, some "/w/b"⟩))) ∧
    (Op.perform (Mercurial.clean troubledCopy) troubledWorld).2.deletions =
      [⟨⟨"/", ["w", "b"]⟩, some 13⟩, ⟨⟨"/", ["w", "a"]⟩, none⟩] := by
  obtain ⟨hmercurial, hgit⟩ := clean_takes_all_steps troubledCopy troubledWorld
  obtain ⟨acts, outcome, w', hcleans, hacts, _, _, _, _, hresult⟩ := hmercurial
  obtain ⟨w₁, exchanges, w'', _, hexchanges, _, hcleans'⟩ := hgit (.inr rfl)
  refine ⟨⟨acts, outcome, w', hcleans, hacts, hresult⟩,
    ⟨w₁, exchanges, w'', hexchanges, hcleans'⟩, ?_, ?_⟩
  . decide +kernel
  . decide +kernel

/-- A world in which git cannot be started, and in which hg lists a name with the null character. -/
def stoppingWorld : World where
  files := ⟨[(["w"], .directory)]⟩
  responses := [{}, {}, { stdout := Text.encode "a\x00b\n" }]
  git := { answers := [.unstarted "Cmd('git') not found"] }

/-- The first command of git's is the only one then, and the third one of hg's is the last; the
errors are none that cleaning tells about. -/
theorem clean_stoppingWorld :
    (Op.perform (Git.clean troubledCopy) stoppingWorld).1 =
      .error (.unstarted "Cmd('git') not found") ∧
    (Op.perform (Git.clean troubledCopy) stoppingWorld).2.log.filterMap Git.arguments? =
      ([["merge", "--abort"]] : List (List Text)) ∧
    (Op.perform (Mercurial.clean troubledCopy) stoppingWorld).1 = .error .nullCharacter ∧
    (Op.perform (Mercurial.clean troubledCopy) stoppingWorld).2.log.filterMap Event.words? =
      ([["hg", "status", "--ignored", "--no-status"], ["hg", "recover"],
        ["hg", "merge", "--abort"]] : List (List Text)) := by
  decide +kernel

end Dvcs
