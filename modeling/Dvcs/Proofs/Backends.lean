import Dvcs.Proofs.Git.History
import Dvcs.Proofs.Mercurial.Facts
import Dvcs.Proofs.Mercurial.Log

/-!
This module contains the agreement of the two backends: whichever of them a history is read through,
the same commits are seen.
-/

namespace Dvcs

namespace Commit

namespace Facts

open Mercurial.Extension Text

theorem commits_agree {fs : List Facts} (hfs : ∀ f ∈ fs, f.WellFormed) {r : WorkingCopy} {q : Query}
    {w : World} (hgit : Git.Tells r q w.git fs) {host : Host} {o : Options}
    (hdiffs : o.noDiffs = false) (hhost : (selected host o).Forall₂ (ShowsFacts host) fs) :
    ∃ w' n,
      Git.commits r q none w = .ok { commits := fs.map commit } w' ∧
      Git.Requests w ((fs.flatMap Git.comparisons).map Git.comparing) w' ∧
      Commit.readAll (.ofLines (Handle.linesOf (log host o).written)) =
        { items := fs.map commit, reader := ⟨[], n, true⟩ } := by
  obtain ⟨w', hwalk, hrequests⟩ := Git.commits_of_tells hfs hgit
  obtain ⟨n, hread⟩ := readAll_of_shows hdiffs hfs hhost
  exact ⟨w', n, hwalk, hrequests, hread⟩

/-- A first commit without any files. -/
def sampleRoot : Facts where
  hash := ⟨List.replicate 40 (.char 'a'), rfl⟩
  author := ⟨"root", none⟩
  timestamp := ⟨0, rfl⟩
  changes := [[]]

/-- A commit with two parents, whose message looks like the frames of a stream. -/
def sampleMerge : Facts where
  hash := ⟨List.replicate 40 (.char 'b'), rfl⟩
  parents := [sampleRoot.hash, .null]
  author := ⟨"Ann", some "ann@x"⟩
  timestamp := ⟨-1000000, rfl⟩
  message := ["#@!_-=&", [], "#@!_-=&diff "]
  changes := [[lookalike], []]

theorem wellFormed_sampleRoot : sampleRoot.WellFormed where
  digits := by decide
  changes := rfl
  name := ⟨by decide, Plain.isLine (by decide)⟩
  unmarked := by decide
  email := nofun
  timestamp := rfl
  message := by decide
  lines := nofun
  last := nofun
  hunks := by simp [sampleRoot]
  read := by
    intro patches hpatches
    rw [List.mem_singleton.1 hpatches]
    exact ⟨_, Patch.readExtended_render (List.forall_mem_nil _) 0 false⟩

theorem wellFormed_of_mem_sampleMerge :
    ∀ patches ∈ sampleMerge.changes, ∀ p ∈ patches, p.WellFormed := by
  simpa [sampleMerge] using wellFormed_lookalike

theorem wellFormed_sampleMerge : sampleMerge.WellFormed where
  digits := by decide
  changes := rfl
  name := ⟨by decide, Plain.isLine (by decide)⟩
  unmarked := by decide
  email := by
    rintro email ⟨⟩
    exact ⟨by decide, by decide, Plain.isLine (by decide)⟩
  timestamp := rfl
  message := by decide
  lines := by
    have hplain : ∀ line ∈ sampleMerge.message, Plain line := by decide
    exact fun line hline => (hplain line hline).isLine
  last := by decide
  hunks patches hpatches p hp h hh :=
    ((wellFormed_of_mem_sampleMerge patches hpatches p hp).hunks h hh).hasLines
  read patches hpatches :=
    ⟨_, Patch.readExtended_render (wellFormed_of_mem_sampleMerge patches hpatches) 0 false⟩

/-- A world with a repository of git's that holds the two commits. -/
def sampleWorld : World where
  git := {
    history := [
      .inl {
        hash := sampleMerge.hash.hex
        parents := [sampleRoot.hash.hex, Hash.null.hex]
        author := ⟨some "Ann", some "ann@x"⟩
        committer := ⟨some "Ann", some "ann@x"⟩
        date := -1
        message := .text "#@!_-=&\n\n#@!_-=&diff \n\n" },
      .inl {
        hash := sampleRoot.hash.hex
        author := ⟨some "root", none⟩
        committer := ⟨some "root", some []⟩ }]
    answers := [Git.shown [lookalike], Git.shown [], Git.shown []] }

theorem tells_sampleWorld (r : WorkingCopy) :
    Git.Tells r {} sampleWorld.git [sampleMerge, sampleRoot] where
  opens := .inr rfl
  nonEmpty := rfl
  references := .inr rfl
  history := by
    refine ⟨_, rfl, .cons ⟨rfl, rfl, ⟨rfl, rfl⟩, ⟨rfl, rfl⟩, ?_, 2, rfl⟩
      (.cons ⟨rfl, rfl, ⟨rfl, rfl⟩, ⟨rfl, rfl⟩, ?_, 0, rfl⟩ .nil)⟩
    . decide
    . decide
  answers := by
    refine ⟨fun trees => if trees.1 = sampleRoot.hash.hex then Git.shown [lookalike]
      else Git.shown [], [], ?_, by decide +kernel⟩
    simp only [List.forall_mem_cons]
    exact ⟨by decide +kernel, by decide +kernel, List.forall_mem_nil _⟩

theorem shows_mergeChange :
    ShowsFacts Mercurial.sampleHost Mercurial.mergeChange sampleMerge where
  hex := by decide +kernel
  parents := by decide +kernel
  user := by decide +kernel
  description := by decide +kernel
  seconds := by decide +kernel
  changes := .cons (by decide +kernel) (.cons (by decide +kernel) .nil)

theorem shows_rootChange : ShowsFacts Mercurial.sampleHost Mercurial.rootChange sampleRoot where
  hex := by decide +kernel
  parents := by decide +kernel
  user := by decide +kernel
  description := by decide +kernel
  seconds := by decide +kernel
  changes := .cons (by decide +kernel) .nil

theorem commits_agree_sample :
    ∃ w' n,
      Git.commits ⟨.git, ⟨"/", ["w"]⟩, "git", none⟩ {} none sampleWorld =
        .ok { commits := [sampleMerge.commit, sampleRoot.commit] } w' ∧
      Git.Requests sampleWorld (([sampleMerge, sampleRoot].flatMap Git.comparisons).map
        Git.comparing) w' ∧
      Commit.readAll (.ofLines (Handle.linesOf (log Mercurial.sampleHost {}).written)) =
        { items := [sampleMerge.commit, sampleRoot.commit], reader := ⟨[], n, true⟩ } := by
  have hfs : ∀ f ∈ [sampleMerge, sampleRoot], f.WellFormed := by
    simpa using ⟨wellFormed_sampleMerge, wellFormed_sampleRoot⟩
  have hselected : selected Mercurial.sampleHost {} =
      [Mercurial.mergeChange, Mercurial.rootChange] := by
    have horder : Options.order {} [0, 1] = [1, 0] :=
      Mercurial.order_of_perm (.swap 0 1 []) (by decide) {}
    unfold selected Mercurial.sampleHost
    dsimp only
    rw [horder]
    rfl
  have hshows : (selected Mercurial.sampleHost {}).Forall₂ (ShowsFacts Mercurial.sampleHost)
      [sampleMerge, sampleRoot] := by
    rw [hselected]
    exact .cons shows_mergeChange (.cons shows_rootChange .nil)
  exact commits_agree hfs (tells_sampleWorld _) rfl hshows

end Facts

end Commit

end Dvcs
