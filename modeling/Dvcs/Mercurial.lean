import Dvcs.Mercurial.Change
import Dvcs.Mercurial.Clean
import Dvcs.Mercurial.Exchange
import Dvcs.Mercurial.History
import Dvcs.Mercurial.PathSettings
import Dvcs.Mercurial.Replay

/-!
This module contains the repositories that are driven by the hg command.
-/

namespace Dvcs

namespace Mercurial

/-- The name of this kind of repository in messages. -/
def backendName : Text := "HgRepository"

def repository (r : WorkingCopy) : Repository Op where
  root := return r.root
  head := head r
  currentBranch := currentBranch r
  branches := branches r
  tags := tags r
  resolve := resolve r
  metadata := metadata r
  diff := diff r
  mergeBase := mergeBase r
  isClean := isClean r
  isHealthy := isHealthy r
  clean := clean r
  close := return ()
  exists? := exists? r
  init := init r
  reinitialize := reinitialize r
  defaultBranch := ⟨"default"⟩
  defaultTag := some ⟨"tip"⟩
  commits := commits r
  checkout := checkout r
  commit := commit r
  amend := fun _ => throw (.refusal (.notImplemented "amend" backendName))
  tag := tag r
  branch := branch r
  isAncestor := isAncestor r
  rebase := fun hash _ => rebase r hash
  squash := squash r
  merge := fun hash strategy _ _ => merge r hash strategy
  apply := apply r
  fetch := fetch r
  push := push r
  pushAll := pushAll r
  pull := pull r
  add := add r
  remove := remove r
  move := move r
  copy := copy r
  content := content r
  isEmpty := isEmpty r
  username := username r
  config := config r
  copyTo := copyTo r
  setPaths := setPaths r
  addRemote := fun name path => setPaths r name path (some path)
  pullPath := pullPath r
  pushPath := pushPath r
  isValidRange := isValidRange r
  trackedBranch := fun branch => return some branch.name

end Mercurial

end Dvcs
